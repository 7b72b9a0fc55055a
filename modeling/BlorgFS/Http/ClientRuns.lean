import BlorgFS.Http.Client

/-! Runs of the client. Whatever requests there are and however their steps come, every connection that
has been made is in one place, the count of the requests is right, and what holds of a request or of a
connection by itself holds of each. -/

namespace BlorgFS.Http

open Lib Tls

/-- Nothing has been sent on a connection since it was made. -/
structure Connection.Unused (conn : Connection) : Prop where
  clear : conn.socket.tls = false
  requests : conn.requests = []
  responses : conn.responses = 0

theorem Connection.Unused.idle {conn : Connection} (h : conn.Unused) (tls : Bool) : conn.Idle tls :=
  ⟨h.responses.trans (congrArg List.length h.requests).symm, fun _ _ => h.requests⟩

namespace Client

variable {tls : Bool} {P : Handshake.Primitives} {pin : Option Digest} {parse : Bytes → Parsed} {size : SystemSize} {x x' : Client}

/-! ### One connection, one place -/

/-- What a step of a request does to the places of a connection. -/
theorem tally_leaves {c : Call} {head : Option Connection} {made : ℕ} {p : Call × Effect} (l : Call.Leaves tls P pin size c head made p) (id : ℕ) :
    tally (counts id) p.1.socket.toList + (tally (counts id) p.2.closed + tally (counts id) p.2.released.toList) =
      tally (counts id) c.socket.toList + (if p.2.popped then tally (counts id) head.toList else 0) + if p.2.made ∧ made = id then 1 else 0 := by
  have hids : ∀ conns : List Connection, tally (counts id) conns = tally (fun n => if n = id then 1 else 0) (conns.map Connection.id) := by
    intro conns
    rw [tally_map]
    rfl
  have hperm := tally_perm (f := fun n => if n = id then 1 else 0) l.ledger
  rw [tally_append, ← hids, ← hids, tally_append, tally_append, tally_append] at hperm
  rw [hperm]
  congr 1
  · congr 1
    split_ifs <;> rfl
  · cases p.2.made <;> simp

theorem tally_head (id : ℕ) (pool : List Connection) : tally (counts id) pool = tally (counts id) pool.head?.toList + tally (counts id) pool.tail := by
  cases pool with
  | nil => rfl
  | cons conn pool => simp

theorem places_release (conn : Connection) (id : ℕ) : (x.release conn).places id = x.places id + counts id conn := by
  unfold release
  split_ifs
  · simp only [places, tally_cons]
    omega
  · simp only [places, tally_cons]
    omega

theorem places_given (released : Option Connection) (id : ℕ) : (x.given released).places id = x.places id + tally (counts id) released.toList := by
  cases released with
  | none => rfl
  | some conn => rw [given, places_release, Option.toList_some, tally_singleton]

/-- A request's step leaves the pool no larger than it may be, and nothing of the prewarm or of the unload
is touched. -/
theorem perform_eq (x : Client) (i : ℕ) (c : Call) (e : Effect) : ∃ pool closed,
    x.perform i c e =
      { x with
        calls := x.calls.set i c, pool, closed, made := if e.made then x.made + 1 else x.made
        active := if e.freed then x.active - 1 else x.active, event := if e.freed then x.event || x.active - 1 = 0 else x.event } ∧
    (x.pool.length ≤ maxPoolSize → pool.length ≤ maxPoolSize) ∧ ∀ conn ∈ pool, conn ∈ x.pool ∨ e.released = some conn := by
  have hgiven : ∃ pool closed, (x.exchange i c e).given e.released = { x.exchange i c e with pool, closed } ∧
      (x.pool.length ≤ maxPoolSize → pool.length ≤ maxPoolSize) ∧ ∀ conn ∈ pool, conn ∈ x.pool ∨ e.released = some conn := by
    have hkept : ∀ conn ∈ (x.exchange i c e).pool, conn ∈ x.pool := by
      intro conn hmem
      have hpool : conn ∈ if e.popped then x.pool.tail else x.pool := hmem
      split_ifs at hpool
      · exact List.mem_of_mem_tail hpool
      · exact hpool
    have hpopped : x.pool.length ≤ maxPoolSize → (x.exchange i c e).pool.length ≤ maxPoolSize := by
      intro hroom
      show (if e.popped then x.pool.tail else x.pool).length ≤ maxPoolSize
      split_ifs
      · rw [List.length_tail]
        omega
      · exact hroom
    cases e.released with
    | none => exact ⟨_, _, rfl, hpopped, fun conn hmem => .inl (hkept conn hmem)⟩
    | some conn =>
      unfold given release
      dsimp only
      split_ifs with hfull
      · exact ⟨_, _, rfl, hpopped, fun conn hmem => .inl (hkept conn hmem)⟩
      · refine ⟨_, _, rfl, fun _ => ?_, fun conn hmem => ?_⟩
        · rw [List.length_cons]
          omega
        · rcases List.mem_cons.1 hmem with rfl | hmem
          · exact .inr rfl
          · exact .inl (hkept conn hmem)
  obtain ⟨pool, closed, heq, hroom, hmem⟩ := hgiven
  refine ⟨pool, closed, ?_, hroom, hmem⟩
  unfold perform
  rw [heq]
  generalize e.freed = freed
  cases freed <;> rfl

theorem places_perform {c c' : Call} {e : Effect} {i : ℕ} (hc : x.calls[i]? = some c)
    (l : Call.Leaves tls P pin size c x.pool.head? x.made (c', e)) (id : ℕ) :
    (x.perform i c' e).places id = x.places id + if e.made ∧ x.made = id then 1 else 0 := by
  have hleaves := tally_leaves l id
  have hset := tally_set (f := fun c => tally (counts id) c.socket.toList) hc c'
  have hpool := tally_head id x.pool
  have hpopped : tally (counts id) (if e.popped then x.pool.tail else x.pool) + (if e.popped then tally (counts id) x.pool.head?.toList else 0) =
      tally (counts id) x.pool := by
    split_ifs <;> omega
  have hkept : ∀ y : Client, (if e.freed then y.releaseActive else y).places id = y.places id := by
    intro y
    split_ifs <;> rfl
  unfold perform
  simp only
  rw [hkept, places_given]
  simp only [places, exchange, tally_append] at hleaves hset ⊢
  omega

/-! ### What a step leaves of the connections -/

theorem Has.of_releaseActive {conn : Connection} (h : x.releaseActive.Has conn) : x.Has conn := by
  cases h with
  | closed hmem => exact .closed hmem
  | pooled hmem => exact .pooled hmem
  | warming hheld => exact .warming hheld
  | call hmem hsocket => exact .call hmem hsocket

theorem Has.of_release {conn released : Connection} (h : (x.release released).Has conn) : conn = released ∨ x.Has conn := by
  unfold release at h
  split_ifs at h
  · cases h with
    | closed hmem => exact (List.mem_cons.1 hmem).imp id .closed
    | pooled hmem => exact .inr (.pooled hmem)
    | warming hheld => exact .inr (.warming hheld)
    | call hmem hsocket => exact .inr (.call hmem hsocket)
  · cases h with
    | closed hmem => exact .inr (.closed hmem)
    | pooled hmem => exact (List.mem_cons.1 hmem).imp id .pooled
    | warming hheld => exact .inr (.warming hheld)
    | call hmem hsocket => exact .inr (.call hmem hsocket)

theorem Has.of_exchange {conn : Connection} {c : Call} {e : Effect} {i : ℕ} (h : (x.exchange i c e).Has conn) :
    conn ∈ e.closed ∨ c.socket = some conn ∨ x.Has conn := by
  cases h with
  | closed hmem => exact (List.mem_append.1 hmem).imp id fun hmem => .inr (.closed hmem)
  | pooled hmem =>
    have hpooled : conn ∈ if e.popped then x.pool.tail else x.pool := hmem
    split_ifs at hpooled
    · exact .inr (.inr (.pooled (List.mem_of_mem_tail hpooled)))
    · exact .inr (.inr (.pooled hpooled))
  | warming hheld => exact .inr (.inr (.warming hheld))
  | call hmem hsocket =>
    rcases List.mem_or_eq_of_mem_set hmem with hmem | rfl
    · exact .inr (.inr (.call hmem hsocket))
    · exact .inr (.inl hsocket)

theorem Has.of_perform {conn : Connection} {c : Call} {e : Effect} {i : ℕ} (h : (x.perform i c e).Has conn) :
    conn ∈ e.closed ++ e.released.toList ∨ c.socket = some conn ∨ x.Has conn := by
  have hgiven : ((x.exchange i c e).given e.released).Has conn := by
    unfold perform at h
    dsimp only at h
    split_ifs at h
    · exact h.of_releaseActive
    · exact h
  have hexchange : (x.exchange i c e).Has conn → conn ∈ e.closed ++ e.released.toList ∨ c.socket = some conn ∨ x.Has conn :=
    fun h => h.of_exchange.imp (List.mem_append_left _) id
  cases hreleased : e.released with
  | none =>
    rw [hreleased] at hgiven hexchange
    exact hexchange hgiven
  | some released =>
    rw [hreleased] at hgiven hexchange
    rcases hgiven.of_release with rfl | h
    · simp
    · exact hexchange h

/-! ### What holds between two steps -/

/-- What holds of the prewarm: nothing has been sent on the connection it has. -/
structure Warmed (P : Handshake.Primitives) (pin : Option Digest) (size : SystemSize) (warming : Warming) : Prop where
  unused : ∀ conn, warming.held = some conn → conn.Unused
  handshaking : ∀ conn hs, warming = .handshaking conn hs → Shaking P pin size hs

theorem Warmed.empty {warming : Warming} (hheld : warming.held = none) : Warmed P pin size warming where
  unused conn he := by
    rw [hheld] at he
    cases he
  handshaking conn hs he := by
    rw [he] at hheld
    cases hheld

/-- What holds of the client between any two steps. -/
structure Inv (tls : Bool) (P : Handshake.Primitives) (pin : Option Digest) (size : SystemSize) (x : Client) : Prop where
  calls : ∀ c ∈ x.calls, c.Inv tls P pin size
  sound : ∀ conn, x.Has conn → conn.Sound P pin size
  room : x.pool.length ≤ maxPoolSize
  places : ∀ id, x.places id = if id < x.made then 1 else 0
  active : x.active = (if x.unload = .running then 1 else 0) + x.live
  event : x.event = true ↔ x.active = 0
  pooled : ∀ conn ∈ x.pool, conn.Idle tls
  warmed : Warmed P pin size x.warming
  latched : x.unload ≠ .running → x.unload ≠ .draining → x.active = 0
  stopped : x.unload = .stopped ∨ x.unload = .cleaned → x.warming = .idle
  cleaned : x.unload = .cleaned → x.pool = []

theorem initial_inv : initial.Inv tls P pin size := by
  refine ⟨?_, ?_, ?_, ?_, ?_, ?_, ?_, .empty rfl, ?_, ?_, ?_⟩
  · intro c hc
    cases hc
  · rintro conn (h | h | h | ⟨h, _⟩) <;> cases h
  · exact Nat.zero_le _
  · intro id
    show 0 = if id < 0 then 1 else 0
    rw [if_neg (Nat.not_lt_zero id)]
  · rfl
  · decide
  · intro conn h
    cases h
  · exact fun h => absurd rfl h
  · rintro (h | h) <;> cases h
  · intro h
    cases h

namespace Inv

variable (h : x.Inv tls P pin size)
include h

/-! ### A request -/

theorem issue (r : Request) (address : ℕ) (buffer mdl : ℕ → UInt8) (hactive : x.active ≠ 0) :
    { x with calls := x.calls ++ [.fresh tls r address buffer mdl], active := x.active + 1 : Client }.Inv tls P pin size where
  calls := List.forall_mem_append.2 ⟨h.calls, List.forall_mem_singleton.2 (Call.fresh_inv tls P pin size r address buffer mdl)⟩
  sound := by
    rintro conn (hmem | hmem | hheld | ⟨hmem, hsocket⟩)
    · exact h.sound conn (.closed hmem)
    · exact h.sound conn (.pooled hmem)
    · exact h.sound conn (.warming hheld)
    · rcases List.mem_append.1 hmem with hmem | hmem
      · exact h.sound conn (.call hmem hsocket)
      · obtain rfl := List.mem_singleton.1 hmem
        cases hsocket
  room := h.room
  places id := by
    rw [← h.places id]
    unfold Client.places
    rw [tally_append, tally_singleton]
    rfl
  active := by
    have hlive := h.active
    unfold live at hlive ⊢
    rw [tally_append, tally_singleton]
    show x.active + 1 = _ + ((_ + 1 : ℕ) : ℤ)
    push_cast
    omega
  event := by
    have hpos : 0 ≤ x.active := by
      rw [h.active]
      split_ifs <;> omega
    show x.event = true ↔ x.active + 1 = 0
    rw [h.event]
    omega
  pooled := h.pooled
  warmed := h.warmed
  latched hr hd := absurd (h.latched hr hd) hactive
  stopped := h.stopped
  cleaned := h.cleaned

/-! ### The step of a request -/

/-- While a request is not over the client is not torn down. -/
theorem unlatched {c : Call} (hc : c ∈ x.calls) (hlive : Call.Phase.live c.phase = true) :
    0 < x.active ∧ (x.unload = .running ∨ x.unload = .draining) := by
  have hle : (Call.Phase.live c.phase).toNat ≤ x.live := le_tally (f := fun c => (Call.Phase.live c.phase).toNat) hc
  rw [hlive] at hle
  have hactive := h.active
  have hpos : 0 < x.active := by
    rw [hactive]
    split_ifs <;> simp only [Bool.toNat_true] at hle <;> omega
  refine ⟨hpos, ?_⟩
  by_contra hno
  obtain ⟨hr, hd⟩ := not_or.1 hno
  have := h.latched hr hd
  omega

theorem perform {c c' : Call} {e : Effect} {i : ℕ} (hc : x.calls[i]? = some c) (hlive : Call.Phase.live c.phase = true)
    (l : Call.Leaves tls P pin size c x.pool.head? x.made (c', e)) : (x.perform i c' e).Inv tls P pin size := by
  obtain ⟨hpos, hopen⟩ := h.unlatched (List.mem_of_getElem? hc) hlive
  have hplaces := places_perform hc l
  have hhas : ∀ conn, (x.perform i c' e).Has conn → conn.Sound P pin size := by
    intro conn hhas
    rcases hhas.of_perform with hmem | hsocket | hhas
    · exact l.sound conn hmem
    · exact l.inv.connection conn hsocket
    · exact h.sound conn hhas
  have hset := tally_set (f := fun c => (Call.Phase.live c.phase).toNat) hc c'
  have hactive := h.active
  have hevent := h.event
  obtain ⟨pool, closed, heq, hroom, hpool⟩ := perform_eq x i c' e
  rw [heq] at hplaces hhas ⊢
  have hpooled : ∀ conn ∈ pool, conn.Idle tls := fun conn hmem => (hpool conn hmem).elim (h.pooled conn) (l.idle conn)
  refine ⟨?_, hhas, hroom h.room, ?_, ?_, ?_, hpooled, h.warmed, ?_, ?_, ?_⟩
  · intro c₁ hmem
    rcases List.mem_or_eq_of_mem_set hmem with hmem | rfl
    · exact h.calls c₁ hmem
    · exact l.inv
  · intro id
    rw [hplaces, h.places]
    show _ = if id < (if e.made then x.made + 1 else x.made) then 1 else 0
    cases e.made with
    | true => simp only [true_and, if_true]; split_ifs <;> omega
    | false => simp
  · have hfreed := l.freed
    simp only at hfreed
    show (if e.freed then x.active - 1 else x.active) = (if x.unload = .running then 1 else 0) + (tally _ (x.calls.set i c') : ℤ)
    unfold live at hactive
    rw [hlive] at hset
    rw [hfreed]
    cases hlive' : Call.Phase.live c'.phase <;> rw [hlive'] at hset <;> simp only [Bool.toNat_true, Bool.toNat_false] at hset <;> simp <;> omega
  · show (if e.freed then x.event || x.active - 1 = 0 else x.event) = true ↔ (if e.freed then x.active - 1 else x.active) = 0
    have hfalse : x.event = false := by
      rw [Bool.eq_false_iff, Ne, hevent]
      omega
    rw [hfalse]
    cases e.freed with
    | true => simp
    | false =>
      simp only [Bool.false_eq_true, if_false, false_iff]
      omega
  · intro hr hd
    exact absurd hopen (not_or.2 ⟨hr, hd⟩)
  · rintro (hs | hs) <;> rcases hopen with ho | ho <;> exact absurd (ho.symm.trans hs) (by decide)
  · intro hs
    rcases hopen with ho | ho <;> exact absurd (ho.symm.trans hs) (by decide)

/-! ### The prewarm -/

/-- What a step of the prewarm leaves, if each connection is still in one place. -/
theorem rewarmed {warming : Warming} {pool closed : List Connection} {made : ℕ} (hopen : x.unload ≠ .stopped ∧ x.unload ≠ .cleaned)
    (hroom : pool.length ≤ maxPoolSize) (hsound : ∀ conn, warming.held = some conn ∨ conn ∈ pool ∨ conn ∈ closed → conn.Sound P pin size)
    (hplaces : ∀ id, tally (counts id) closed + tally (counts id) pool + tally (counts id) warming.held.toList =
      tally (counts id) x.closed + tally (counts id) x.pool + tally (counts id) x.warming.held.toList + if x.made ≤ id ∧ id < made then 1 else 0)
    (hmade : x.made ≤ made) (hpooled : ∀ conn ∈ pool, conn.Idle tls) (hwarmed : Warmed P pin size warming) :
    { x with warming, pool, closed, made : Client }.Inv tls P pin size where
  calls := h.calls
  sound := by
    rintro conn (hmem | hmem | hheld | ⟨hmem, hsocket⟩)
    · exact hsound conn (.inr (.inr hmem))
    · exact hsound conn (.inr (.inl hmem))
    · exact hsound conn (.inl hheld)
    · exact h.sound conn (.call hmem hsocket)
  room := hroom
  places id := by
    have hid := hplaces id
    have hold := h.places id
    unfold Client.places at hold
    show tally (counts id) closed + tally (counts id) pool + tally (counts id) warming.held.toList +
      tally (fun c => tally (counts id) c.socket.toList) x.calls = if id < made then 1 else 0
    split_ifs at hid hold ⊢ <;> omega
  active := h.active
  event := h.event
  pooled := hpooled
  warmed := hwarmed
  latched := h.latched
  stopped hs := by
    rcases hs with hs | hs
    · exact absurd hs hopen.1
    · exact absurd hs hopen.2
  cleaned hs := absurd hs hopen.2

/-- While the prewarm has a step out the client is not torn down. -/
theorem warm_unstopped (hwarming : x.warming ≠ .idle) : x.unload ≠ .stopped ∧ x.unload ≠ .cleaned :=
  ⟨fun hs => hwarming (h.stopped (.inl hs)), fun hs => hwarming (h.stopped (.inr hs))⟩

/-- The connection that the prewarm held is released. -/
theorem warmed_release {conn conn' : Connection} (hheld : x.warming.held = some conn) (hid : conn'.id = conn.id) (hconn : conn'.Sound P pin size)
    (hidle : conn'.Idle tls) : ({ x with warming := .finishing : Client }.release conn').Inv tls P pin size := by
  have hopen : x.unload ≠ .stopped ∧ x.unload ≠ .cleaned := by
    apply h.warm_unstopped
    intro hidle
    rw [hidle] at hheld
    cases hheld
  have hcounts : ∀ id, counts id conn' = counts id conn := fun id => by rw [counts, counts, hid]
  unfold release
  dsimp only
  split_ifs with hfull
  · refine rewarmed h hopen h.room ?_ ?_ (Nat.le_refl _) h.pooled (.empty rfl)
    · rintro conn₁ (hmem | hmem | hmem)
      · cases hmem
      · exact h.sound conn₁ (.pooled hmem)
      · rcases List.mem_cons.1 hmem with rfl | hmem
        · exact hconn
        · exact h.sound conn₁ (.closed hmem)
    · intro id
      rw [hheld, tally_cons, hcounts, if_neg (by omega)]
      simp only [Warming.held, Option.toList_none, Option.toList_some, tally_nil, tally_cons]
      omega
  · refine rewarmed h hopen ?_ ?_ ?_ (Nat.le_refl _) (List.forall_mem_cons.2 ⟨hidle, h.pooled⟩) (.empty rfl)
    · rw [List.length_cons]
      omega
    · rintro conn₁ (hmem | hmem | hmem)
      · cases hmem
      · rcases List.mem_cons.1 hmem with rfl | hmem
        · exact hconn
        · exact h.sound conn₁ (.pooled hmem)
      · exact h.sound conn₁ (.closed hmem)
    · intro id
      rw [hheld, tally_cons, hcounts, if_neg (by omega)]
      simp only [Warming.held, Option.toList_none, Option.toList_some, tally_nil, tally_cons]
      omega

/-- The connection that the prewarm held is closed. -/
theorem warmed_close {conn : Connection} (hheld : x.warming.held = some conn) :
    { x with warming := .finishing, closed := conn :: x.closed : Client }.Inv tls P pin size := by
  have hopen : x.unload ≠ .stopped ∧ x.unload ≠ .cleaned := by
    apply h.warm_unstopped
    intro hidle
    rw [hidle] at hheld
    cases hheld
  refine rewarmed h hopen h.room ?_ ?_ (Nat.le_refl _) h.pooled (.empty rfl)
  · rintro conn₁ (hmem | hmem | hmem)
    · cases hmem
    · exact h.sound conn₁ (.pooled hmem)
    · rcases List.mem_cons.1 hmem with rfl | hmem
      · exact h.sound conn₁ (.warming hheld)
      · exact h.sound conn₁ (.closed hmem)
  · intro id
    rw [hheld, tally_cons, if_neg (by omega)]
    simp only [Warming.held, Option.toList_none, Option.toList_some, tally_nil, tally_cons]
    omega

/-- The prewarm goes on with the connection it has, or with none. -/
theorem warmed_held {warming : Warming} (hopen : x.unload ≠ .stopped ∧ x.unload ≠ .cleaned) (hheld : warming.held = x.warming.held)
    (hwarmed : Warmed P pin size warming) : { x with warming : Client }.Inv tls P pin size := by
  refine rewarmed h hopen h.room ?_ ?_ (Nat.le_refl _) h.pooled hwarmed
  · rintro conn₁ (hmem | hmem | hmem)
    · exact h.sound conn₁ (.warming (hheld ▸ hmem))
    · exact h.sound conn₁ (.pooled hmem)
    · exact h.sound conn₁ (.closed hmem)
  · intro id
    rw [hheld, if_neg (by omega)]
    omega

theorem prewarmStepComplete {result : Except Status (ℕ → UInt8)} {address : ℕ} (hwarming : x.warming = .connecting) :
    (x.prewarmStepComplete tls address result).Inv tls P pin size := by
  have hopen : x.unload ≠ .stopped ∧ x.unload ≠ .cleaned := h.warm_unstopped (by rw [hwarming]; nofun)
  have hnone : x.warming.held = none := by rw [hwarming]; rfl
  unfold Client.prewarmStepComplete
  cases result with
  | error status => exact warmed_held h hopen hnone.symm (.empty rfl)
  | ok buffer =>
    have hmade : { x with made := x.made + 1, warming := .opening (.fresh x.made address buffer) : Client }.Inv tls P pin size := by
      refine rewarmed h hopen h.room ?_ ?_ (Nat.le_succ _) h.pooled ⟨?_, ?_⟩
      · rintro conn₁ (hmem | hmem | hmem)
        · obtain rfl := Option.some.inj hmem
          exact .fresh x.made address buffer
        · exact h.sound conn₁ (.pooled hmem)
        · exact h.sound conn₁ (.closed hmem)
      · intro id
        rw [hnone]
        simp only [Warming.held, Option.toList_none, Option.toList_some, tally_nil, tally_cons, counts, Connection.fresh]
        split_ifs <;> omega
      · rintro conn ⟨⟩
        exact ⟨rfl, rfl, rfl⟩
      · rintro _ _ ⟨⟩
    dsimp only
    split_ifs
    · exact hmade
    · exact warmed_release hmade rfl rfl (.fresh x.made address buffer) ⟨rfl, fun _ _ => rfl⟩

theorem prewarmHandshake {conn : Connection} {hs hs' : Handshake.State} (hwarming : x.warming = .handshaking conn hs)
    (hi : Handshake.Inv P size (Begun P pin) hs') (hfault : hs'.progress ≠ .fault) : (x.prewarmHandshake P conn hs').Inv tls P pin size := by
  have hheld : x.warming.held = some conn := by rw [hwarming]; rfl
  have hunused := h.warmed.unused conn hheld
  have hgoes : hs'.progress.goesOn = true → { x with warming := .handshaking conn hs' : Client }.Inv tls P pin size := by
    intro hgoesOn
    refine warmed_held h (h.warm_unstopped (by rw [hwarming]; nofun)) hheld.symm ⟨?_, ?_⟩
    · rintro _ ⟨⟩
      exact hunused
    · rintro _ _ ⟨⟩
      exact ⟨hi, hgoesOn⟩
  unfold Client.prewarmHandshake
  cases hprogress : hs'.progress with
  | complete =>
    have hidle : (Call.handshaken P conn hs').Idle tls := ⟨(hunused.idle tls).responses, nofun⟩
    exact warmed_release h hheld rfl ((h.sound conn (.warming hheld)).handshaken hunused.clear hunused.requests hi hprogress) hidle
  | failed status => exact warmed_close h hheld
  | fault => exact absurd hprogress hfault
  | _ => exact hgoes (by rw [hprogress]; rfl)

theorem warm {act : WarmAct} (hn : x.warm P pin size tls act = some x') : x'.Inv tls P pin size := by
  cases act with
  | issue =>
    unfold Client.warm at hn
    dsimp only at hn
    split at hn
    · rename_i hwarming hunload
      obtain rfl := Option.some.inj hn
      refine warmed_held h ⟨?_, ?_⟩ (by rw [hwarming]; rfl) (.empty rfl) <;> rw [hunload] <;> decide
    · rename_i hwarming hunload
      obtain rfl := Option.some.inj hn
      refine warmed_held h ⟨?_, ?_⟩ (by rw [hwarming]; rfl) (.empty rfl) <;> rw [hunload] <;> decide
    · cases hn
  | connected result address =>
    unfold Client.warm at hn
    dsimp only at hn
    split at hn
    · rename_i hwarming
      obtain rfl := Option.some.inj hn
      exact prewarmStepComplete h hwarming
    · cases hn
  | hello result =>
    unfold Client.warm at hn
    dsimp only at hn
    split at hn
    · rename_i conn status hwarming
      obtain rfl := Option.some.inj hn
      exact warmed_close h (by rw [hwarming]; rfl)
    · rename_i conn hello hwarming
      obtain rfl := Option.some.inj hn
      have hheld : x.warming.held = some conn := by rw [hwarming]; rfl
      have hunused := h.warmed.unused conn hheld
      refine warmed_held h (h.warm_unstopped (by rw [hwarming]; nofun)) hheld.symm ⟨?_, ?_⟩
      · rintro _ ⟨⟩
        exact hunused
      · rintro _ _ ⟨⟩
        exact (h.sound conn (.warming hheld)).hello hunused.clear hello
    · cases hn
  | handshake act =>
    unfold Client.warm at hn
    dsimp only at hn
    split at hn
    · rename_i conn hs hwarming
      obtain ⟨hs', hnext, rfl⟩ := Option.map_eq_some_iff.1 hn
      have hcarried : Handshake.Carried P pin (Begun P pin) := Begun.carried
      exact prewarmHandshake h hwarming ((h.warmed.handshaking conn hs hwarming).inv.next hcarried hnext) (Handshake.next_ne_fault hnext)
    · cases hn
  | finish =>
    unfold Client.warm at hn
    dsimp only at hn
    split at hn
    · rename_i hwarming
      obtain rfl := Option.some.inj hn
      exact warmed_held h (h.warm_unstopped (by rw [hwarming]; nofun)) (by rw [hwarming]; rfl) (.empty rfl)
    · cases hn

/-! ### The unload -/

theorem drain (hunload : x.unload = .running) : { x.releaseActive with unload := .draining : Client }.Inv tls P pin size := by
  have hactive := h.active
  rw [if_pos hunload] at hactive
  have hfalse : x.event = false := by
    rw [Bool.eq_false_iff, Ne, h.event]
    omega
  refine ⟨h.calls, ?_, h.room, h.places, ?_, ?_, h.pooled, h.warmed, fun _ hd => absurd rfl hd, ?_, ?_⟩
  · rintro conn (hmem | hmem | hheld | ⟨hmem, hsocket⟩)
    · exact h.sound conn (.closed hmem)
    · exact h.sound conn (.pooled hmem)
    · exact h.sound conn (.warming hheld)
    · exact h.sound conn (.call hmem hsocket)
  · show x.active - 1 = 0 + (x.live : ℤ)
    omega
  · show (x.event || decide (x.active - 1 = 0)) = true ↔ x.active - 1 = 0
    simp [hfalse]
  · rintro (hs | hs) <;> cases hs
  · intro hs
    cases hs

/-- The unload goes on once no reference is left. -/
theorem unloads {unload : Unload} (hrunning : unload ≠ .running) (hpast : x.unload ≠ .running) (hactive : x.active = 0)
    (hstopped : unload = .stopped ∨ unload = .cleaned → x.warming = .idle) (hcleaned : unload = .cleaned → x.pool = []) :
    { x with unload : Client }.Inv tls P pin size := by
  refine ⟨h.calls, ?_, h.room, h.places, ?_, h.event, h.pooled, h.warmed, fun _ _ => hactive, hstopped, hcleaned⟩
  · rintro conn (hmem | hmem | hheld | ⟨hmem, hsocket⟩)
    · exact h.sound conn (.closed hmem)
    · exact h.sound conn (.pooled hmem)
    · exact h.sound conn (.warming hheld)
    · exact h.sound conn (.call hmem hsocket)
  · show x.active = (if unload = .running then 1 else 0) + (x.live : ℤ)
    have hold := h.active
    rw [if_neg hpast] at hold
    rw [if_neg hrunning]
    exact hold

theorem cleanup {conn : Connection} {pool : List Connection} (hunload : x.unload = .stopped) (hpool : x.pool = conn :: pool) :
    { x with pool, closed := conn :: x.closed : Client }.Inv tls P pin size := by
  have hroom := h.room
  rw [hpool, List.length_cons] at hroom
  refine ⟨h.calls, ?_, Nat.le_of_succ_le hroom, ?_, h.active, h.event, ?_, h.warmed, h.latched, h.stopped, ?_⟩
  · rintro conn₁ (hmem | hmem | hheld | ⟨hmem, hsocket⟩)
    · rcases List.mem_cons.1 hmem with rfl | hmem
      · exact h.sound conn₁ (.pooled (hpool ▸ List.mem_cons_self))
      · exact h.sound conn₁ (.closed hmem)
    · exact h.sound conn₁ (.pooled (hpool ▸ List.mem_cons_of_mem _ hmem))
    · exact h.sound conn₁ (.warming hheld)
    · exact h.sound conn₁ (.call hmem hsocket)
  · intro id
    have hold := h.places id
    unfold Client.places at hold ⊢
    rw [hpool, tally_cons] at hold
    rw [← hold, tally_cons]
    dsimp only
    omega
  · exact fun conn₁ hmem => h.pooled conn₁ (hpool ▸ List.mem_cons_of_mem _ hmem)
  · intro hs
    exact absurd (hunload.symm.trans hs) (by decide)

end Inv

/-! ### Every run -/

theorem next_inv {act : ClientAct} (hparse : ParsesInside parse) (h : x.Inv tls P pin size) (hn : x.next parse P pin size tls act = some x') :
    x'.Inv tls P pin size := by
  cases act with
  | issue r address buffer mdl =>
    unfold next at hn
    dsimp only at hn
    split_ifs at hn with hactive
    · obtain rfl := Option.some.inj hn
      exact h
    · obtain rfl := Option.some.inj hn
      exact h.issue r address buffer mdl hactive
  | call i act =>
    unfold next at hn
    dsimp only at hn
    split at hn
    · cases hn
    · rename_i c hc
      obtain ⟨⟨c', e⟩, hnext, rfl⟩ := Option.map_eq_some_iff.1 hn
      have hmem := List.mem_of_getElem? hc
      have hhead : ∀ conn, x.pool.head? = some conn → conn.Sound P pin size ∧ conn.Idle tls := fun conn hconn =>
        ⟨h.sound conn (.pooled (List.mem_of_mem_head? hconn)), h.pooled conn (List.mem_of_mem_head? hconn)⟩
      exact h.perform hc (Call.next_live hnext) (Call.next_leaves hparse (h.calls c hmem) hhead hnext)
  | warm act => exact h.warm hn
  | drain =>
    unfold next at hn
    dsimp only at hn
    split_ifs at hn with hunload
    obtain rfl := Option.some.inj hn
    exact h.drain hunload
  | latch =>
    unfold next at hn
    dsimp only at hn
    split_ifs at hn with hunload
    obtain rfl := Option.some.inj hn
    refine h.unloads (by decide) ?_ (h.event.1 hunload.2) ?_ nofun
    · rw [hunload.1]
      decide
    · rintro (hs | hs) <;> cases hs
  | observe =>
    unfold next at hn
    dsimp only at hn
    split at hn
    · rename_i hunload hwarming
      obtain rfl := Option.some.inj hn
      refine h.unloads (by decide) ?_ (h.latched ?_ ?_) (fun _ => hwarming) nofun
      · rw [hunload]
        decide
      · rw [hunload]
        decide
      · rw [hunload]
        decide
    · cases hn
  | cleanup =>
    unfold next at hn
    dsimp only at hn
    split_ifs at hn with hunload
    split at hn
    · rename_i hpool
      obtain rfl := Option.some.inj hn
      refine h.unloads (by decide) ?_ (h.latched ?_ ?_) (fun _ => h.stopped (.inl hunload)) fun _ => hpool
      · rw [hunload]
        decide
      · rw [hunload]
        decide
      · rw [hunload]
        decide
    · rename_i conn pool hpool
      obtain rfl := Option.some.inj hn
      exact h.cleanup hunload hpool

theorem reachable_inv (hparse : ParsesInside parse) (h : (system parse P pin size tls).Reachable x) : x.Inv tls P pin size := by
  refine System.invariant ?_ ?_ h
  · rintro _ rfl
    exact initial_inv
  · rintro x x' _ hx ⟨act, hn⟩
    exact next_inv hparse hx hn

end Client

end BlorgFS.Http
