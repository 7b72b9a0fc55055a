import BlorgFS.Http.Delivery

/-! Requests one after another on one connection, in the clear. The server answers each when
it has been sent, so while a request is under way the connection carries its response and
nothing else. Every receive takes any part of what is there, up to what was posted. -/

namespace BlorgFS.Http

open Lib Tls

/-- A connection: what the requests before have delivered, the request under way, whether it
found the connection in the pool, which of its bytes have been received and which have not, and
whether the system denied it something. -/
structure Exchange where
  answered : List Delivered
  state : State
  reused : Bool
  got : Bytes
  wire : Bytes
  starved : Bool

inductive ExchangeAct where
  | received (n : ℕ) (k : Choice)
  | closed (k : Choice)
  | another (buffer mdl : ℕ → UInt8) (k : Choice)

namespace Exchange

variable (parse : Bytes → Parsed) (size : SystemSize) (r : ℕ → Request) (stream : ℕ → Bytes)

/-- The request under way comes after those that have been answered. -/
abbrev index (x : Exchange) : ℕ := x.answered.length

/-- A receive takes the next bytes, the peer closes once there are none left, and with the
response complete the connection is used again. -/
def next (x : Exchange) : ExchangeAct → Option Exchange
  | .received n k =>
    (Http.next parse size (r x.index) x.state (.received (x.wire.take n) k)).map fun state =>
      { x with state, got := x.got ++ x.wire.take n, wire := x.wire.drop n, starved := x.starved || !decide k.Willing }
  | .closed k =>
    if x.wire = [] then
      (Http.next parse size (r x.index) x.state (.closed k)).map fun state =>
        { x with state, starved := x.starved || !decide k.Willing }
    else none
  | .another buffer mdl k =>
    match x.state.stage with
    | .responded =>
      some
        { answered := x.answered ++ [x.state.ctx.delivered (r x.index)]
          state := start (r (x.index + 1)) buffer mdl x.state.socket true k
          reused := true
          got := []
          wire := x.wire ++ stream (x.index + 1)
          starved := x.starved || !decide k.Willing }
    | _ => none

/-- Every run over a connection that is not secured. -/
def plain : System Exchange where
  init x := ∃ buffer mdl socket reused k, socket.acc.Fits size ∧ socket.tls = false ∧
    x = ⟨[], start (r 0) buffer mdl socket reused k, reused, [], stream 0, !decide k.Willing⟩
  step x x' := ∃ act, x.next parse size r stream act = some x'

end Exchange

variable {parse : Bytes → Parsed} {size : SystemSize} {r : Request} {k : Choice} {c : Context} {s s' : State} {b p : Bytes} {starved : Bool}

/-! ### Every run over a connection -/

namespace Exchange

variable {rs : ℕ → Request} {stream : ℕ → Bytes} {x x' : Exchange}

structure Inv (parse : Bytes → Parsed) (size : SystemSize) (rs : ℕ → Request) (stream : ℕ → Bytes) (x : Exchange) : Prop where
  state : Http.Inv (rs x.index) size x.state
  plain : x.state.socket.tls = false
  bytes : x.got ++ x.wire = stream x.index
  settled : Settled parse (rs x.index) x.reused (stream x.index) x.got x.starved x.state
  answered : ∀ j d, x.answered[j]? = some d → judge parse (rs j) (stream j) = .delivered d

theorem inv_init (hl : ∀ i, Proper parse (rs i) (stream i)) (h : (plain parse size rs stream).init x) : Inv parse size rs stream x := by
  obtain ⟨buffer, mdl, socket, reused, k, hf, htls, rfl⟩ := h
  refine ⟨start_inv hf, ?_, rfl, start_settled (hl 0).toLegible (fun hno => by simp [hno]), by simp⟩
  rw [start, issue_socket]
  exact htls

theorem inv_received (hl : ∀ i, Proper parse (rs i) (stream i)) (hi : Inv parse size rs stream x) {n : ℕ}
    (hn : x.next parse size rs stream (.received n k) = some x') : Inv parse size rs stream x' := by
  obtain ⟨s, hs, rfl⟩ := Option.map_eq_some_iff.mp hn
  simp only [Http.next] at hs
  split at hs
  · rename_i post hstage
    split_ifs at hs with hc
    obtain rfl := Option.some.inj hs
    obtain ⟨hr, hh, _⟩ := hi.settled.waiting (by simp [State.ending, hstage])
    obtain ⟨rfl, _⟩ := hi.state.posted post hstage
    have hw := hi.state.waiting (by rw [hstage]; trivial)
    have hpre : x.got ++ x.wire.take n <+: stream x.index := by
      rw [← hi.bytes]
      exact (List.prefix_append_right_inj _).mpr (List.take_prefix _ _)
    have hlp := (hl x.index).toLegible.of_part hpre
    obtain ⟨hb', ha'⟩ := received_spec hi.state.bounded hw hc.2
    have hh' := hh.extended (hl x.index).toLegible hpre hw.offset_le (received_extended hi.state.bounded hw hc.2)
    refine ⟨?_, ?_, ?_, ?_, hi.answered⟩
    · exact read_inv (hh'.consumed_le hlp) hb' ha' hi.state.fits
    · rw [read_socket]
      exact hi.plain
    · show (x.got ++ x.wire.take n) ++ x.wire.drop n = _
      rw [List.append_assoc, List.take_append_drop, hi.bytes]
    · show Settled parse (rs x.index) x.reused _ _ _ _
      rw [← hr]
      exact read_settled (s := { x.state with ctx := _ }) (hl x.index) hpre hb' ha' (fun hno => by simp [hno]) hh'
  · rename_i room hstage
    have htls := hi.state.secured (by rw [hstage]; trivial)
    rw [hi.plain] at htls
    cases htls
  · cases hs

theorem inv_closed (hl : ∀ i, Proper parse (rs i) (stream i)) (hi : Inv parse size rs stream x) (hn : x.next parse size rs stream (.closed k) = some x') : Inv parse size rs stream x' := by
  simp only [next] at hn
  split_ifs at hn with hwire
  obtain ⟨s, hs, rfl⟩ := Option.map_eq_some_iff.mp hn
  have hgot : x.got = stream x.index := by
    rw [← hi.bytes, hwire, List.append_nil]
  simp only [Http.next] at hs
  split at hs
  · rename_i post hstage
    obtain ⟨hr, hh, hj⟩ := hi.settled.waiting (by simp [State.ending, hstage])
    have hw := hi.state.waiting (by rw [hstage]; trivial)
    split_ifs at hs with hopen
    · obtain rfl := Option.some.inj hs
      refine ⟨lose_inv hi.state.bounded hi.state.fits, ?_, hi.bytes, ?_, hi.answered⟩
      · rw [lose_socket]
        exact hi.plain
      · show Settled parse (rs x.index) x.reused _ _ _ _
        rw [← hr, hgot]
        rw [hgot] at hh hj
        exact lose_settled (hl x.index).toLegible hw hh hj
    · have := not_or.mp hopen
      exact absurd (hw.short this.1) this.2
  · rename_i room hstage
    have htls := hi.state.secured (by rw [hstage]; trivial)
    rw [hi.plain] at htls
    cases htls
  · cases hs

theorem inv_another (hl : ∀ i, Proper parse (rs i) (stream i)) (hi : Inv parse size rs stream x) {buffer mdl : ℕ → UInt8}
    (hn : x.next parse size rs stream (.another buffer mdl k) = some x') : Inv parse size rs stream x' := by
  simp only [next] at hn
  split at hn
  · rename_i hstage
    obtain rfl := Option.some.inj hn
    obtain ⟨hgot, hj, _⟩ := hi.settled.responded hstage
    have hwire : x.wire = [] := by
      have := hi.bytes
      rw [hgot] at this
      simpa using this
    have hindex : (x.answered ++ [x.state.ctx.delivered (rs x.index)]).length = x.index + 1 := by simp [index]
    constructor
    · show Http.Inv (rs (x.answered ++ [_]).length) size _
      rw [hindex]
      exact start_inv hi.state.fits
    · rw [start, issue_socket]
      exact hi.plain
    · show [] ++ (x.wire ++ stream (x.index + 1)) = stream (x.answered ++ [_]).length
      rw [hwire, hindex]
      rfl
    · show Settled parse (rs (x.answered ++ [_]).length) true (stream (x.answered ++ [_]).length) [] _ _
      rw [hindex]
      exact start_settled (hl _).toLegible fun hno => by simp [hno]
    · intro j d hd
      rcases Nat.lt_or_ge j x.answered.length with hlt | hge
      · rw [List.getElem?_append_left hlt] at hd
        exact hi.answered j d hd
      · rw [List.getElem?_append_right hge] at hd
        obtain ⟨hjx, rfl⟩ : j - x.answered.length = 0 ∧ x.state.ctx.delivered (rs x.index) = d := by
          cases hjx : j - x.answered.length with
          | zero =>
            rw [hjx] at hd
            exact ⟨rfl, Option.some.inj hd⟩
          | succ m =>
            rw [hjx] at hd
            cases hd
        obtain rfl : j = x.answered.length := by omega
        exact hj
  · cases hn

theorem reachable_inv (hl : ∀ i, Proper parse (rs i) (stream i)) (h : (plain parse size rs stream).Reachable x) : Inv parse size rs stream x := by
  apply System.invariant (P := Inv parse size rs stream) _ _ h
  · exact fun _ => inv_init hl
  · rintro x x' _ hi ⟨act, hn⟩
    cases act with
    | received n k => exact inv_received hl hi hn
    | closed k => exact inv_closed hl hi hn
    | another buffer mdl k => exact inv_another hl hi hn

end Exchange

/-! ### Well-formed responses -/

/-- A response: headers that `phr_parse_response` reads as a whole and in no other way, short
enough, and with one valid length, which is that of the body behind them. -/
structure Answer (parse : Bytes → Parsed) where
  head : Bytes
  body : Bytes
  statusCode : ℕ
  headers : List Header
  field : Header
  nonempty : head ≠ []
  short : head.length < maxHeaderBytes
  incomplete : ∀ p, p <+: head → p ≠ head → parse p = .incomplete
  ends : ∀ y, parse (head ++ y) = .complete head.length statusCode headers
  only : headers.filter (fun h => tokenEquals h.name (ascii "content-length")) = [field]
  digits : field.value ≠ [] ∧ ∀ c ∈ field.value, isDigit c
  length : decimalFrom 0 field.value = body.length
  fits : body.length ≤ sizeMax

namespace Answer

variable (a : Answer parse)

def bytes : Bytes := a.head ++ a.body

def delivered (r : Request) : Delivered := ⟨a.statusCode, r.noStore a.headers, r.version a.headers, a.body⟩

variable {a}

theorem contentLength_eq : getContentLength a.headers = .ok a.body.length := by
  have hle : decimalFrom 0 a.field.value ≤ sizeMax := by
    rw [a.length]
    exact a.fits
  rw [getContentLength_of_single a.only a.digits.1 a.digits.2 hle, a.length]

/-- A part of a response that is read at all has all of its headers. -/
theorem parse_part (hp : p <+: a.bytes) : parse p = .incomplete ∧ p.length < a.head.length ∨
    a.head <+: p ∧ parse p = .complete a.head.length a.statusCode a.headers := by
  by_cases hpre : a.head <+: p
  · obtain ⟨y, rfl⟩ := hpre
    exact .inr ⟨List.prefix_append _ _, a.ends y⟩
  · have hp' : p <+: a.head := (List.prefix_or_prefix_of_prefix hp (List.prefix_append _ _)).resolve_right hpre
    have hne : p ≠ a.head := by
      rintro rfl
      exact hpre (List.prefix_refl _)
    have hlt : p.length < a.head.length := by
      have hle := hp'.length_le
      have hneq : p.length ≠ a.head.length := fun h => hne (hp'.eq_of_length h)
      omega
    exact .inl ⟨a.incomplete p hp' hne, hlt⟩

theorem legible (a : Answer parse) : Legible parse a.bytes where
  start := a.incomplete [] List.nil_prefix fun h => a.nonempty h.symm
  stable {p q} h1 h2 hne := by
    rcases parse_part (h1.trans h2) with ⟨hinc, _⟩ | ⟨hpre, hparse⟩
    · exact absurd hinc hne
    · obtain ⟨y, rfl⟩ := hpre.trans h1
      rw [hparse]
      exact a.ends y
  inside {p n code hs} hp he := by
    rcases parse_part hp with ⟨hinc, _⟩ | ⟨hpre, hparse⟩
    · rw [hinc] at he
      cases he
    · rw [hparse] at he
      obtain ⟨rfl, _⟩ := Parsed.complete.inj he
      exact ⟨List.length_pos_iff.mpr a.nonempty, hpre.length_le⟩
  short {p} hp he hlong := by
    have hshort := a.short
    rcases parse_part hp with ⟨_, hlt⟩ | ⟨_, hparse⟩
    · omega
    · rw [hparse] at he
      cases he

theorem accepted_length {cl : ℕ} (h : accept r a.statusCode a.headers = .ok cl) : cl = a.body.length := by
  unfold accept at h
  rw [contentLength_eq] at h
  simp only at h
  split_ifs at h
  exact (Except.ok.inj h).symm

/-- All of a response is delivered, or it is refused for what its status and headers say. -/
theorem judge_bytes : judge parse r a.bytes =
    match accept r a.statusCode a.headers with
    | .error st => .failed st
    | .ok _ => .delivered (a.delivered r) := by
  rw [judge, bytes, a.ends]
  simp only
  cases hacc : accept r a.statusCode a.headers with
  | error st => rfl
  | ok cl =>
    simp [accepted_length hacc, delivered]

theorem proper (a : Answer parse) (r : Request) : Proper parse r a.bytes where
  toLegible := a.legible
  exact {p d} hp hj := by
    rcases parse_part hp with ⟨hinc, _⟩ | ⟨_, hparse⟩
    · rw [judge, hinc] at hj
      simp only at hj
      split_ifs at hj
    · have hall : parse a.bytes = .complete a.head.length a.statusCode a.headers := a.ends _
      have hb : judge parse r a.bytes = _ := judge_bytes
      rw [judge, hall] at hb
      rw [judge, hparse] at hj
      simp only at hb hj
      cases hacc : accept r a.statusCode a.headers with
      | error st =>
        rw [hacc] at hj
        cases hj
      | ok cl =>
        rw [hacc] at hb hj
        simp only at hb hj
        have hle := hp.length_le
        split_ifs at hb hj
        exact hp.eq_of_length (by omega)

end Answer

/-! ### However the bytes come -/

/-- On a connection that is kept alive, however the bytes of the responses are cut into
receives: each request is answered with the response to it, byte for byte; a receive is for
something, and there is something to come, any part of which it can take; once the headers have
been parsed it is for no more than is left of the response. -/
theorem response_framing {rs : ℕ → Request} {x : Exchange} (a : ℕ → Answer parse)
    (h : (Exchange.plain parse size rs fun i => (a i).bytes).Reachable x) :
    (∀ j d, x.answered[j]? = some d → d = (a j).delivered (rs j)) ∧
    (x.state.stage = .responded → x.wire = [] ∧ x.state.ctx.delivered (rs x.index) = (a x.index).delivered (rs x.index) ∧
      ((rs x.index).operation ≠ .fileRead → x.state.ctx.bodyOffset % 8 = 0)) ∧
    (∀ st, x.state.stage = .failed st → x.starved ∨ accept (rs x.index) (a x.index).statusCode (a x.index).headers = .error st) ∧
    (∀ post, x.state.stage = .receiving post → 0 < post.size ∧ x.wire ≠ [] ∧
      (x.state.ctx.bodyOffset ≠ 0 → post.size ≤ x.wire.length) ∧
      ∀ n k, 0 < n → n ≤ post.size → n ≤ x.wire.length →
        ∃ x', x.next parse size rs (fun i => (a i).bytes) (.received n k) = some x' ∧ x'.wire.length + n = x.wire.length) ∧
    (x.state.stage.Live → ∃ post, x.state.stage = .receiving post) := by
  have hi := Exchange.reachable_inv (fun i => (a i).proper (rs i)) h
  have hj := (a x.index).judge_bytes (r := rs x.index)
  have hset := hi.settled
  have hpre : x.got <+: (a x.index).bytes := by
    rw [← hi.bytes]
    exact List.prefix_append _ _
  refine ⟨?_, ?_, ?_, ?_, ?_⟩
  · intro j d hd
    have hj := hi.answered j d hd
    rw [(a j).judge_bytes] at hj
    split at hj
    · cases hj
    · exact (Outcome.delivered.inj hj).symm
  · intro hstage
    obtain ⟨hgot, hd, hal⟩ := hset.responded hstage
    refine ⟨?_, ?_, hal⟩
    · have := hi.bytes
      rw [hgot] at this
      simpa using this
    · rw [hd] at hj
      split at hj
      · cases hj
      · exact Outcome.delivered.inj hj
  · intro st hstage
    rcases hset.ended (.failed st) (by simp [State.ending, hstage]) with hend | ⟨hst, _⟩
    · rw [conclude, hj] at hend
      cases hacc : accept (rs x.index) (a x.index).statusCode (a x.index).headers with
      | error st' =>
        rw [hacc] at hend
        rw [Ending.failed.inj hend]
        exact .inr rfl
      | ok cl =>
        rw [hacc] at hend
        cases hend
    · exact .inl hst
  · intro post hstage
    obtain ⟨_, hh, hw⟩ := hset.waiting (by simp [State.ending, hstage])
    obtain ⟨rfl, hpos⟩ := hi.state.posted post hstage
    have hwait := hi.state.waiting (by rw [hstage]; trivial)
    refine ⟨hpos, ?_, ?_, ?_⟩
    · intro hnil
      have hgot := hi.bytes
      rw [hnil, List.append_nil] at hgot
      rw [hgot] at hw
      rw [hw] at hj
      split at hj <;> cases hj
    · intro h0
      rw [Holds, if_neg h0] at hh
      obtain ⟨n, code, hs, hr⟩ := hh
      have hlen := hr.length
      have hend := hwait.end_eq
      have hshort := hwait.short h0
      have hoff := hwait.offset_le
      have htotal := congrArg List.length hi.bytes
      rw [List.length_append, Answer.bytes, List.length_append] at htotal
      rcases (a x.index).parse_part hpre with ⟨hinc, _⟩ | ⟨hhead, hparse⟩
      · rw [hr.parsed] at hinc
        cases hinc
      · obtain ⟨rfl, rfl, rfl⟩ := Parsed.complete.inj (hr.parsed.symm.trans hparse)
        have hcl := Answer.accepted_length hr.accepted
        have hle := hhead.length_le
        rw [postOf_size_le h0]
        omega
    · intro n k hn hpost hwire
      have hlen : (x.wire.take n).length = n := by
        rw [List.length_take]
        omega
      obtain ⟨s, hs⟩ : ∃ s, next parse size (rs x.index) x.state (.received (x.wire.take n) k) = some s := by
        simp only [next, hstage]
        rw [if_pos (by omega)]
        exact ⟨_, rfl⟩
      refine ⟨_, Option.map_eq_some_iff.mpr ⟨s, hs, rfl⟩, ?_⟩
      show (x.wire.drop n).length + n = x.wire.length
      rw [List.length_drop]
      omega
  · intro hlive
    cases hstage : x.state.stage with
    | receiving post => exact ⟨post, rfl⟩
    | draining =>
      have htls := hi.state.secured (by rw [hstage]; trivial)
      rw [hi.plain] at htls
      cases htls
    | bulk room =>
      have htls := hi.state.secured (by rw [hstage]; trivial)
      rw [hi.plain] at htls
      cases htls
    | connecting =>
      rcases hset.ended .retried (by simp [State.ending, hstage]) with hend | ⟨_, st, hst⟩
      · rw [conclude, hj] at hend
        cases hacc : accept (rs x.index) (a x.index).statusCode (a x.index).headers <;> rw [hacc] at hend <;> cases hend
      · cases hst
    | failed st =>
      rw [hstage] at hlive
      exact hlive.elim
    | responded =>
      rw [hstage] at hlive
      exact hlive.elim

/-- Three bytes behind four of headers. -/
def threeBytesAnswer : Answer threeBytes where
  head := [1, 2, 3, 4]
  body := [5, 6, 7]
  statusCode := 206
  headers := [⟨ascii "content-length", ascii "3"⟩]
  field := ⟨ascii "content-length", ascii "3"⟩
  nonempty := by decide
  short := by decide
  incomplete p hp hne := by
    have hle := hp.length_le
    have hneq : p.length ≠ [1, 2, 3, 4].length := fun h => hne (hp.eq_of_length h)
    simp only [List.length_cons, List.length_nil] at hle hneq
    exact if_pos (by omega)
  ends y := if_neg (by simp)
  only := by decide +kernel
  digits := by decide +kernel
  length := by decide +kernel
  fits := by decide +kernel

/-- The headers with two bytes of the body, the third, and then the second response in one
piece. -/
theorem response_framing_twice :
    ∃ x, (Exchange.plain threeBytes .small (fun _ => .getFileMdl 3) fun _ => threeBytesAnswer.bytes).Reachable x ∧
      x.answered = [⟨206, false, none, [5, 6, 7]⟩] ∧ x.state.stage = .responded ∧ x.state.ctx.delivered (.getFileMdl 3) = ⟨206, false, none, [5, 6, 7]⟩ := by
  have hrun : (run (Exchange.next threeBytes .small (fun _ => .getFileMdl 3) fun _ => threeBytesAnswer.bytes)
      ⟨[], start (.getFileMdl 3) (fun _ => 0) (fun _ => 0) (emptySocket false fun _ _ _ _ => none) false willing, false, [], threeBytesAnswer.bytes, false⟩
      [.received 6 willing, .received 1 willing, .another (fun _ => 9) (fun _ => 9) willing, .received 7 willing]).any
        (fun x => x.answered = [⟨206, false, none, [5, 6, 7]⟩] && match x.state.stage with
          | .responded => true
          | _ => false) = true := by decide +kernel
  obtain ⟨x, hx, hok⟩ := (Option.any_eq_true _ _).mp hrun
  have hnext : ∀ x act x', Exchange.next threeBytes .small (fun _ => .getFileMdl 3) (fun _ => threeBytesAnswer.bytes) x act = some x' →
      (Exchange.plain threeBytes .small (fun _ => .getFileMdl 3) fun _ => threeBytesAnswer.bytes).step x x' := fun _ act _ h => ⟨act, h⟩
  have hreach := System.Reachable.run hnext (.init ⟨_, _, _, _, _, ⟨Nat.le_refl 0, Nat.zero_le _⟩, rfl, rfl⟩) hx
  rw [Bool.and_eq_true, decide_eq_true_eq] at hok
  have hstage : x.state.stage = .responded := by
    have := hok.2
    split at this
    · assumption
    · cases this
  refine ⟨x, hreach, hok.1, hstage, ?_⟩
  exact ((response_framing (fun _ => threeBytesAnswer) hreach).2.1 hstage).2.1

end BlorgFS.Http
