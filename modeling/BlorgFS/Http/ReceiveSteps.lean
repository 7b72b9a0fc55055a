import BlorgFS.Http.Call
import BlorgFS.Http.Records
import BlorgFS.Tls.Authentication
import BlorgFS.Tls.HandshakeSafety

/-! What a step of the receiving part does beside what it must not do: what it leaves of the
connection, and that the response it ends with is the one that was asked for and is there in full. -/

namespace BlorgFS.Tls.Handshake

open Lib Checked

/-- The static part of the nonces is as long as they are. -/
theorem length_writeIv {P : Primitives} {c : Context} {keys : Keys} {mac : Digest} (h : deriveApplicationKeys P c = .ok (keys, mac)) :
    keys.writeIv.length = ivLen := by
  unfold deriveApplicationKeys at h
  simp only [bind_eq_ok] at h
  obtain ⟨_, _, _, _, _, _, _, _, _, _, _, _, _, _, iv, hiv, _, _, _, _, _, _, _, _, h⟩ := h
  obtain ⟨rfl, _⟩ := Prod.mk.inj (Checked.ok.inj h)
  exact (meets_iff.1 hkdfExpandLabel_meets).2 _ hiv

end BlorgFS.Tls.Handshake

namespace BlorgFS.Http

open Lib Tls

variable {r : Request} {c c' : Context} {k : Choice} {parse : Bytes → Parsed} {size : SystemSize} {socket : Socket} {s s' : State}

/-! ### The response -/

/-- The response whose headers have ended is one the request accepts. -/
def Accepted (r : Request) (c : Context) : Prop :=
  c.bodyOffset ≠ 0 → c.statusCode = r.expectedStatusCode ∧ (r.operation = .fileRead → c.contentLength = r.expectedContentLength)

/-- The response is there, and nothing behind it. -/
structure Full (r : Request) (c : Context) : Prop where
  statusCode : c.statusCode = r.expectedStatusCode
  read : r.operation = .fileRead → c.contentLength = r.expectedContentLength
  content_le : c.contentLength ≤ maxContentLength
  end_eq : c.bodyEndOffset = c.bodyOffset + c.contentLength
  length : c.length = c.bodyEndOffset

/-- What is known of a response from its headers. -/
structure SameHead (c c' : Context) : Prop where
  bodyOffset : c'.bodyOffset = c.bodyOffset
  statusCode : c'.statusCode = c.statusCode
  contentLength : c'.contentLength = c.contentLength

theorem Kept.sameHead (h : Kept c c') : SameHead c c' := ⟨h.bodyOffset, h.statusCode, h.contentLength⟩

theorem Extended.sameHead {content : Bytes} (h : Extended r c content c') : SameHead c c' := ⟨h.bodyOffset, h.statusCode, h.contentLength⟩

theorem SameHead.trans {c₁ : Context} (h : SameHead c c₁) (h' : SameHead c₁ c') : SameHead c c' :=
  ⟨h'.bodyOffset.trans h.bodyOffset, h'.statusCode.trans h.statusCode, h'.contentLength.trans h.contentLength⟩

theorem SameHead.accepted (h : SameHead c c') (ha : Accepted r c) : Accepted r c' := by
  intro h0
  rw [h.bodyOffset] at h0
  rw [h.statusCode, h.contentLength]
  exact ha h0

theorem reset_accepted : Accepted r c.reset := fun h => absurd rfl h

theorem accept_read {statusCode n : ℕ} {headers : List Header} (h : accept r statusCode headers = .ok n) (hr : r.operation = .fileRead) :
    n = r.expectedContentLength := by
  unfold accept at h
  split at h
  · cases h
  · split_ifs at h with h1 h2 h3
    obtain rfl := Except.ok.inj h
    by_contra hne
    exact h3 ⟨hr, hne⟩

/-- What a response that goes on or is there is known to be. -/
structure Judged (r : Request) (v : Verdict) (c : Context) : Prop where
  accepted : v = .again → Accepted r c
  full : v = .responded → Full r c

theorem Judged.failed {st : Status} : Judged r (.failed st) c := ⟨nofun, nofun⟩

theorem await_judged (ha : c.statusCode = r.expectedStatusCode ∧ (r.operation = .fileRead → c.contentLength = r.expectedContentLength))
    (hmax : c.contentLength ≤ maxContentLength) (hend : c.bodyEndOffset = c.bodyOffset + c.contentLength) (hle : c.length ≤ c.bodyEndOffset) :
    Judged r (await c) c := by
  unfold await
  split_ifs with hlt
  · exact ⟨fun _ _ => ha, nofun⟩
  · exact ⟨nofun, fun _ => ⟨ha.1, ha.2, hmax, hend, by omega⟩⟩

theorem readResponse_judged (hin : c.bodyOffset = 0 → ∀ n code hs, parse (load c.buffer 0 c.length) = .complete n code hs → n ≤ c.length)
    (hb : Bounded r c) (ha : Arrived r c) (hacc : Accepted r c) {v : Verdict} (he : readResponse parse r k c = (v, c')) : Judged r v c' := by
  by_cases h0 : c.bodyOffset = 0
  · have hlt := ha.length_lt hb (.inr h0)
    specialize hin h0
    have hread := readResponse_head (r := r) (k := k) h0 hlt hin
    rw [he] at hread
    cases hread with
    | more => exact ⟨fun _ => hacc, nofun⟩
    | endless | malformed | refused | refusedHeaded | overrun | unplaced => exact .failed
    | @placed n code hs cl _ hp hok hle hpl =>
      obtain ⟨hcl, hcode, _⟩ := accept_ok hok
      have hplaced := placeBody_spec (headed_headed ha hb h0 (hin _ _ _ hp) hcl hle) hpl
      have hlen : c'.contentLength = cl := hplaced.contentLength
      refine await_judged ⟨hplaced.statusCode.trans hcode, fun hr => ?_⟩ (hlen ▸ hcl) hplaced.end_eq hplaced.inside
      rw [hlen]
      exact accept_read hok hr
  · rw [readResponse_body h0] at he
    split_ifs at he with h1
    · obtain ⟨rfl, rfl⟩ := Prod.mk.inj he
      exact .failed
    · obtain ⟨rfl, rfl⟩ := Prod.mk.inj he
      exact await_judged (hacc h0) ha.content_le ha.end_eq (by omega)

/-! ### Taking a record off -/

/-- What a turn of the loop takes: the record at the front, which is there in full. -/
structure Took (c : Context) (socket : Socket) (c' : Context) (socket' : Socket) : Prop where
  whole : 5 + socket.acc.declared ≤ socket.acc.buffered
  acc : socket'.acc = socket.acc.consume
  tls : socket'.tls = socket.tls
  head : SameHead c c'

/-- What a turn of the loop comes to. -/
inductive Turn (c : Context) (socket : Socket) : Drained → Prop
  | wait : Turn c socket .wait
  | next {c' socket'} : Took c socket c' socket' → Turn c socket (.next c' socket')
  | deliver {c' socket'} : Took c socket c' socket' → Turn c socket (.deliver c' socket')
  | failed {st c'} : Turn c socket (.failed st c')
  | lost {st c'} : Turn c socket (.lost st c')

theorem openRecord_turn (hb : Bounded r c) (hw : Waiting r c) (hd : socket.acc.declared ≤ ciphertextMax)
    (hbuf : 5 + socket.acc.declared ≤ socket.acc.buffered) : Turn c socket (openRecord r k c socket) := by
  have hle : socket.acc.declared - tagLength ≤ ciphertextMax := by omega
  have hrec : socket.acc.record.length = 5 + socket.acc.declared := Accumulator.length_record
  unfold openRecord
  simp only
  cases hdest : destination r k c (socket.acc.declared - tagLength) with
  | error st => exact .failed
  | ok p =>
    obtain ⟨c₁, dest⟩ := p
    obtain ⟨hk, hb₁, hw₁, hfits⟩ := destination_spec hb hw hle hdest
    simp only
    split
    · exact .lost
    · rename_i plain _
      have hl : plain.1.length = socket.acc.declared - tagLength := by
        rw [plain.2, List.length_take, List.length_drop, hrec]
        omega
      have hfits' : DestFits r c₁ plain.1.length dest := by
        rw [hl]
        exact hfits
      have hk₂ := hk.trans (decrypted_kept hfits')
      split
      · exact .lost
      · rename_i contentType n hstrip
        have hn := stripInnerPlaintext_lt hstrip
        split_ifs
        · exact .next ⟨hbuf, rfl, rfl, hk₂.sameHead⟩
        · exact .lost
        · have hacc := account_spec (s := { socket with readSeq := socket.readSeq + 1, acc := socket.acc.consume })
            (decrypted_bounded hb₁ hw₁ (by omega) hfits') (decrypted_waiting hw₁ hfits') (decrypted_landed hw₁ (Nat.le_of_lt hn) hfits')
          generalize account _ _ _ _ = d at hacc ⊢
          cases hacc with
          | overrun => exact .failed
          | deliver hx => exact .deliver ⟨hbuf, rfl, rfl, hk₂.sameHead.trans hx.sameHead⟩
          | next hx => exact .next ⟨hbuf, rfl, rfl, hk₂.sameHead.trans hx.sameHead⟩

theorem drain_turn (hb : Bounded r c) (hw : Waiting r c) : Turn c socket (drain r k c socket) := by
  unfold drain
  simp only
  split_ifs with h5 h15 hbad hpart h14 hshort
  · exact .wait
  · exact .lost
  · exact .lost
  · exact .wait
  · exact .next ⟨by omega, rfl, rfl, (Kept.refl c).sameHead⟩
  · exact .lost
  · exact openRecord_turn hb hw (by omega) (by omega)

/-! ### A step -/

/-- What is known of a response in a state, and that only a connection from the pool is given up for
another. -/
structure Answered (r : Request) (reused : Bool) (s : State) : Prop where
  accepted : s.stage.Live → Accepted r s.ctx
  full : s.stage = .responded → Full r s.ctx
  retried : s.stage = .connecting → reused = true

variable {reused : Bool}

theorem Answered.of_live (h : Accepted r s.ctx) (hstage : s.stage ≠ .responded) (hretried : s.stage ≠ .connecting) : Answered r reused s :=
  ⟨fun _ => h, fun he => absurd he hstage, fun he => absurd he hretried⟩

theorem Answered.failed {st : Status} (hstage : s.stage = .failed st) : Answered r reused s := by
  constructor
  · intro hl
    rw [hstage] at hl
    cases hl
  · intro he
    rw [hstage] at he
    cases he
  · intro he
    rw [hstage] at he
    cases he

theorem issue_answered (hb : Bounded r s.ctx) (hw : Waiting r s.ctx) (ha : Accepted r s.ctx) : Answered r reused (s.issue r k) := by
  unfold State.issue
  split
  · exact .failed rfl
  · split_ifs
    · exact .of_live ha nofun nofun
    · split
      · exact .failed rfl
      · rename_i c post he
        exact .of_live ((issueReceive_spec hb hw he).1.sameHead.accepted ha) nofun nofun

theorem read_answered (hin : s.ctx.bodyOffset = 0 → ∀ n code hs, parse (load s.ctx.buffer 0 s.ctx.length) = .complete n code hs → n ≤ s.ctx.length)
    (hb : Bounded r s.ctx) (ha : Arrived r s.ctx) (hacc : Accepted r s.ctx) : Answered r reused (s.read parse r k) := by
  unfold State.read
  split
  · rename_i c he
    obtain ⟨hb', hw'⟩ := readResponse_spec hin hb ha he
    exact issue_answered hb' (hw' rfl) ((readResponse_judged hin hb ha hacc he).accepted rfl)
  · exact .failed rfl
  · rename_i c he
    exact ⟨False.elim, fun _ => (readResponse_judged hin hb ha hacc he).full rfl, nofun⟩

theorem lose_answered {st : Status} : Answered r s.reused (s.lose st) := by
  unfold State.lose
  split_ifs with hreused
  · exact ⟨fun _ => reset_accepted, nofun, fun _ => hreused.1⟩
  · exact .failed rfl

theorem postBulk_answered (ha : Accepted r s.ctx) : Answered r reused (s.postBulk size k) := by
  unfold State.postBulk
  cases k.refused with
  | some st => exact .failed rfl
  | none => exact .of_live ha nofun nofun

theorem turned_answered {d : Drained} (hparse : ParsesInside parse) (hstage : s.stage = .draining) (ha : Accepted r s.ctx)
    (hsafe : DrainSafe r size s.socket d) (hturn : Turn s.ctx s.socket d) : Answered r s.reused (s.turned parse size r k d) := by
  cases hturn with
  | wait => exact postBulk_answered ha
  | next ht =>
    refine .of_live (ht.head.accepted ha) ?_ ?_
    · show s.stage ≠ .responded
      rw [hstage]
      nofun
    · show s.stage ≠ .connecting
      rw [hstage]
      nofun
  | deliver ht =>
    cases hsafe with
    | deliver hb harrived => exact read_answered (s := { s with ctx := _, socket := _ }) (fun _ => hparse.local) hb harrived (ht.head.accepted ha)
  | failed => exact .failed rfl
  | @lost st c => exact lose_answered (s := { s with ctx := c })

theorem next_answered {act : Act} (hparse : ParsesInside parse) (hi : Inv r size s) (ha : s.stage.Live → Accepted r s.ctx)
    (hn : next parse size r s act = some s') : Answered r s.reused s' := by
  cases act with
  | connected socket k =>
    simp only [next] at hn
    split at hn
    · rename_i hstage
      have hl : s.stage.Live := by rw [hstage]; trivial
      split_ifs at hn
      obtain rfl := Option.some.inj hn
      exact issue_answered (s := { s with socket }) hi.bounded (hi.waiting hl) (ha hl)
    · cases hn
  | received chunk k =>
    simp only [next] at hn
    split at hn
    · rename_i post hstage
      have hl : s.stage.Live := by rw [hstage]; trivial
      split_ifs at hn with hc
      obtain rfl := Option.some.inj hn
      obtain ⟨rfl, _⟩ := hi.posted post hstage
      obtain ⟨hb', ha'⟩ := received_spec hi.bounded (hi.waiting hl) hc.2
      exact read_answered (s := { s with ctx := _ }) (fun _ => hparse.local) hb' ha'
        ((received_extended hi.bounded (hi.waiting hl) hc.2).sameHead.accepted (ha hl))
    · rename_i room hstage
      have hl : s.stage.Live := by rw [hstage]; trivial
      split_ifs at hn
      obtain rfl := Option.some.inj hn
      exact issue_answered (s := { s with socket := _ }) hi.bounded (hi.waiting hl) (ha hl)
    · cases hn
  | closed k =>
    simp only [next] at hn
    split at hn
    · rename_i post hstage
      have hl : s.stage.Live := by rw [hstage]; trivial
      split_ifs at hn
      · obtain rfl := Option.some.inj hn
        exact lose_answered
      · obtain rfl := Option.some.inj hn
        exact read_answered (fun _ => hparse.local) hi.bounded (hi.waiting hl).toArrived (ha hl)
    · obtain rfl := Option.some.inj hn
      exact lose_answered
    · cases hn
  | broken st =>
    simp only [next] at hn
    split at hn
    · obtain rfl := Option.some.inj hn
      exact lose_answered
    · obtain rfl := Option.some.inj hn
      exact lose_answered
    · cases hn
  | drained k =>
    simp only [next] at hn
    split at hn
    · rename_i hstage
      have hl : s.stage.Live := by rw [hstage]; trivial
      obtain rfl := Option.some.inj hn
      exact turned_answered hparse hstage (ha hl) (drain_safe hi.bounded (hi.waiting hl) hi.fits) (drain_turn hi.bounded (hi.waiting hl))
    · cases hn

/-! ### The connection -/

/-- The header of the record that a request goes out in. -/
def sealedHeader (request : Bytes) : Bytes :=
  [0x17, 0x03, 0x03, UInt8.ofNat ((request.length + 1 + tagLength) / 256), UInt8.ofNat (request.length + 1 + tagLength)]

/-- The record that a request goes out in, under the keys and the number. -/
def Sealed (P : Handshake.Primitives) (keys : Handshake.Keys) (seq : ℕ) (request record : Bytes) : Prop :=
  ∃ ciphertext, P.aeadEncrypt keys.writeKey (buildNonce keys.writeIv seq) (sealedHeader request) (request ++ [0x17]) = .ok ciphertext ∧
    record = sealedHeader request ++ ciphertext ∧ request.length + 1 + tagLength ≤ ciphertextMax

/-- The keys come from a handshake with the pinned peer. -/
def Trusted (P : Handshake.Primitives) (pin : Option Digest) (keys : Handshake.Keys) : Prop :=
  ∃ clientPrivate clientPublic clientHello x, Handshake.Exchange.Authentic P pin clientPrivate clientPublic clientHello x keys

/-- What is known of the peer in a handshake, whatever it started with. -/
def Begun (P : Handshake.Primitives) (pin : Option Digest) (c : Handshake.Context) (_ : List Bytes) (done : Bool) : Prop :=
  ∃ clientPrivate clientPublic clientHello, Handshake.Known P pin clientPrivate clientPublic clientHello c done

theorem Begun.carried {P : Handshake.Primitives} {pin : Option Digest} : Handshake.Carried P pin (Begun P pin) where
  received := by
    rintro c c' taken record done ⟨clientPrivate, clientPublic, clientHello, h⟩ hreceived
    exact ⟨clientPrivate, clientPublic, clientHello, h.received hreceived⟩

/-- What holds of a handshake that has not ended. -/
structure Shaking (P : Handshake.Primitives) (pin : Option Digest) (size : SystemSize) (hs : Handshake.State) : Prop where
  inv : Handshake.Inv P size (Begun P pin) hs
  goesOn : hs.progress.goesOn = true

/-- What holds of a connection wherever it is: the records taken off it and what its accumulator still
holds are what has been received on it, the records sealed on it are numbered one after the other and
sent at most once, and nothing of this has begun before its handshake is complete, with the pinned peer. -/
structure Connection.Sound (P : Handshake.Primitives) (pin : Option Digest) (size : SystemSize) (conn : Connection) : Prop where
  stream : Handshake.Stream size conn.socket.acc conn.wire conn.taken
  untouched : conn.socket.tls = false → conn.wire = [] ∧ conn.sealed = []
  sealed : ∀ i s, conn.sealed[i]? = some s → Sealed P conn.keys (i % 2 ^ 64) s.1 s.2
  writeSeq : conn.writeSeq = conn.sealed.length % 2 ^ 64
  writeIv : conn.socket.tls = true → conn.keys.writeIv.length = Handshake.ivLen
  trusted : conn.socket.tls = true → Trusted P pin conn.keys
  sent : conn.socket.tls = true → conn.requests.Sublist conn.sealed

/-- Every request that was sent on the connection has had its response, and over TLS none was sent before
the handshake. -/
structure Connection.Idle (tls : Bool) (conn : Connection) : Prop where
  responses : conn.responses = conn.requests.length
  unsent : tls = true → conn.socket.tls = false → conn.requests = []

/-- A request is the last that was sent on the connection, and the only one that has not had its response. -/
structure Connection.Asked (tls : Bool) (request : Bytes) (conn : Connection) : Prop where
  last : ∃ earlier bytes, conn.requests = earlier ++ [(request, bytes)] ∧ conn.responses = earlier.length
  secured : tls = true → conn.socket.tls = true

theorem Connection.Idle.asked {tls : Bool} {conn : Connection} (h : conn.Idle tls) (hsecured : tls = true → conn.socket.tls = true) (request bytes : Bytes) :
    { conn with requests := conn.requests ++ [(request, bytes)] : Connection }.Asked tls request :=
  ⟨⟨conn.requests, bytes, rfl, h.responses⟩, hsecured⟩

theorem Connection.Asked.answered {tls : Bool} {request : Bytes} {conn : Connection} (h : conn.Asked tls request) :
    { conn with responses := conn.responses + 1 : Connection }.Idle tls where
  responses := by
    obtain ⟨earlier, bytes, hrequests, hresponses⟩ := h.last
    show conn.responses + 1 = conn.requests.length
    rw [hrequests, hresponses, List.length_append, List.length_singleton]
  unsent htls hclear := absurd ((h.secured htls).symm.trans hclear) (by decide)

namespace Connection.Sound

variable {P : Handshake.Primitives} {pin : Option Digest} {conn : Connection}

theorem fresh (id address : ℕ) (buffer : ℕ → UInt8) : (Connection.fresh id address buffer).Sound P pin size :=
  ⟨⟨⟨Nat.le_refl 0, Nat.zero_le _⟩, rfl, nofun⟩, fun _ => ⟨rfl, rfl⟩, nofun, rfl, nofun, nofun, nofun⟩

theorem pending (h : conn.Sound P pin size) (htls : conn.socket.tls = false) : conn.socket.acc.pending = [] := by
  have hwire := h.stream.wire
  rw [(h.untouched htls).1] at hwire
  exact (List.append_eq_nil_iff.1 hwire.symm).2

/-- What is received once the handshake is complete. -/
theorem received (h : conn.Sound P pin size) {socket : Socket} {wire : Bytes} {taken : List Bytes} (hopen : conn.socket.tls = true) (htls : socket.tls = true)
    (hstream : Handshake.Stream size socket.acc wire taken) : { conn with socket, wire, taken : Connection }.Sound P pin size where
  stream := hstream
  untouched he := absurd (htls.symm.trans he) (by decide)
  sealed := h.sealed
  writeSeq := h.writeSeq
  writeIv _ := h.writeIv hopen
  trusted _ := h.trusted hopen
  sent _ := h.sent hopen

/-- A handshake starts with nothing received. -/
theorem hello (h : conn.Sound P pin size) (htls : conn.socket.tls = false) (hello : Hello) :
    Shaking P pin size (conn.hello hello) := by
  refine ⟨⟨⟨h.stream.fits, ?_, nofun⟩, nofun, ?_, nofun⟩, rfl⟩
  · show [] = [] ++ conn.socket.acc.pending
    rw [h.pending htls]
    rfl
  · rintro _ ⟨⟩
    exact ⟨hello.clientPrivate, hello.clientPublic, hello.clientHello, .fresh⟩

/-- A connection whose handshake is complete goes on with what the handshake has received. -/
theorem handshaken (h : conn.Sound P pin size) {hs : Handshake.State} (htls : conn.socket.tls = false) (hrequests : conn.requests = [])
    (hi : Handshake.Inv P size (Begun P pin) hs) (hcomplete : hs.progress = .complete) : (Call.handshaken P conn hs).Sound P pin size := by
  have hsealed := (h.untouched htls).2
  obtain ⟨keys, mac, hkeys, hderived⟩ := hi.keyed (by rw [hcomplete]; rfl)
  obtain ⟨clientPrivate, clientPublic, clientHello, hknown⟩ := hi.holds true (by rw [hcomplete]; rfl)
  obtain ⟨x, _, hauthentic⟩ := hknown.authentic hderived
  have hkeep : (hs.keys.getD ⟨[], [], [], []⟩) = keys := by
    rw [hkeys]
    rfl
  refine ⟨hi.stream, nofun, ?_, ?_, fun _ => ?_, fun _ => ?_, fun _ => ?_⟩
  · intro i s hs
    have hs' : conn.sealed[i]? = some s := hs
    rw [hsealed] at hs'
    cases hs'
  · show 0 = conn.sealed.length % 2 ^ 64
    rw [hsealed]
    rfl
  · show (hs.keys.getD _).writeIv.length = Handshake.ivLen
    rw [hkeep]
    exact Handshake.length_writeIv hderived
  · show Trusted P pin (hs.keys.getD _)
    rw [hkeep]
    exact ⟨clientPrivate, clientPublic, clientHello, x, hauthentic⟩
  · show conn.requests.Sublist conn.sealed
    rw [hrequests]
    exact List.nil_sublist _

end Connection.Sound

/-- What a step of the receiving part leaves of the connection. -/
theorem recorded_sound {P : Handshake.Primitives} {pin : Option Digest} {call : Call} {conn : Connection} {act : Act} (hconn : conn.Sound P pin size) (hi : Inv call.request size s)
    (hsocket : s.socket = conn.socket) (hctx : s.ctx = call.ctx) (hne : s.stage ≠ .connecting) (hn : next parse size call.request s act = some s') :
    { call.recorded conn act with socket := s'.socket : Connection }.Sound P pin size ∧ s'.socket.tls = conn.socket.tls := by
  have hsame : s'.socket = conn.socket → call.recorded conn act = conn →
      { call.recorded conn act with socket := s'.socket : Connection }.Sound P pin size ∧ s'.socket.tls = conn.socket.tls := by
    intro h h'
    rw [h, h']
    exact ⟨hconn, rfl⟩
  cases act with
  | connected socket k =>
    cases hstage : s.stage with
    | connecting => exact absurd hstage hne
    | _ => simp only [next, hstage, reduceCtorEq] at hn
  | received chunk k =>
    simp only [next] at hn
    split at hn
    · rename_i post hstage
      split_ifs at hn
      obtain rfl := Option.some.inj hn
      have hclear := hi.clear post hstage
      rw [hsocket] at hclear
      apply hsame (read_socket.trans hsocket)
      rw [Call.recorded, hclear]
      rfl
    · rename_i room hstage
      have htls := hi.secured (by rw [hstage]; trivial)
      obtain ⟨hroom, _⟩ := hi.bulk room hstage
      rw [hsocket] at htls hroom
      split_ifs at hn with hc
      obtain rfl := Option.some.inj hn
      rw [issue_socket, Call.recorded, if_pos htls, hsocket]
      exact ⟨hconn.received htls htls (hconn.stream.arrive (hroom ▸ hc.2)), rfl⟩
    · cases hn
  | closed k =>
    simp only [next] at hn
    split at hn
    · split_ifs at hn
      · obtain rfl := Option.some.inj hn
        exact hsame (lose_socket.trans hsocket) rfl
      · obtain rfl := Option.some.inj hn
        exact hsame (read_socket.trans hsocket) rfl
    · obtain rfl := Option.some.inj hn
      exact hsame (lose_socket.trans hsocket) rfl
    · cases hn
  | broken st =>
    simp only [next] at hn
    split at hn
    · obtain rfl := Option.some.inj hn
      exact hsame (lose_socket.trans hsocket) rfl
    · obtain rfl := Option.some.inj hn
      exact hsame (lose_socket.trans hsocket) rfl
    · cases hn
  | drained k =>
    simp only [next] at hn
    split at hn
    · rename_i hstage
      obtain rfl := Option.some.inj hn
      have htls := hi.secured (by rw [hstage]; trivial)
      have hturn : Turn s.ctx s.socket (drain call.request k s.ctx s.socket) := drain_turn hi.bounded (hi.waiting (by rw [hstage]; trivial))
      rw [hsocket] at htls
      rw [Call.recorded, State.drained]
      rw [hctx, hsocket] at hturn ⊢
      generalize drain call.request k call.ctx conn.socket = d at hturn ⊢
      cases hturn with
      | wait =>
        rw [State.turned, Secured.postBulk_socket, hsocket]
        refine ⟨hconn.received htls ?_ ?_, rfl⟩
        · exact htls
        · exact hconn.stream.settle
      | next ht => exact ⟨hconn.received htls (ht.tls.trans htls) (ht.acc ▸ hconn.stream.consume ht.whole), ht.tls⟩
      | deliver ht =>
        rw [State.turned, read_socket]
        exact ⟨hconn.received htls (ht.tls.trans htls) (ht.acc ▸ hconn.stream.consume ht.whole), ht.tls⟩
      | failed =>
        rw [State.turned, hsocket]
        exact ⟨hconn, rfl⟩
      | lost =>
        rw [State.turned, lose_socket, hsocket]
        exact ⟨hconn, rfl⟩
    · cases hn

end BlorgFS.Http
