import BlorgFS.Http.Exchange
import BlorgFS.Http.Records

/-! A request ends the same way over a secured connection and in the clear, for every way of
putting the response into records and every way of cutting the ciphertext into receives. The
one thing in which the two differ is headers that are longer than they may be: whether they are
given up depends on how much of them comes at once. -/

namespace BlorgFS.Http

open Lib Tls

variable {parse : Bytes → Parsed} {size size' : SystemSize} {r : Request} {b p tail : Bytes} {x : Exchange} {y : Secured} {e : Ending}

/-- A request that has the whole stream and still waits can only be left by the peer. -/
theorem Settled.left {reused starved : Bool} {s : State} (hs : Settled parse r reused b p starved s) (hj : judge parse r b = .waiting)
    (he : s.ending r = some e) : e = .failed .connectionDisconnected ∨ e = .retried ∨ starved = true ∧ ∃ st, e = .failed st := by
  rcases hs.ended e he with hc | hst
  · rw [conclude_of_waiting hj] at hc
    split_ifs at hc
    · exact .inr (.inl hc.symm)
    · exact .inl hc.symm
  · exact .inr (.inr hst)

/-- However the response comes in the clear and however it comes in records, the request ends
in the same way, with the same bytes delivered, unless the system denied it something; and
neither way is anything waited for that the other would not wait for. -/
theorem secured_as_plain (hl : Proper parse r b) (htail : tail = [] ∨ judge parse r b ≠ .waiting)
    (hx : (Exchange.plain parse size (fun _ => r) fun _ => b).Reachable x) (hy : (Secured.system parse size' r b tail).Reachable y)
    (hreused : x.reused = y.reused) :
    (∀ e e', x.state.ending r = some e → y.state.ending r = some e' →
      e = e' ∨ x.starved = true ∧ (∃ st, e = .failed st) ∨ y.starved = true ∧ ∃ st, e' = .failed st) ∧
    (∀ e, x.state.ending r = some e → (∃ room, y.state.stage = .bulk room) → y.wire = [] →
      e = .failed .connectionDisconnected ∨ e = .retried ∨ x.starved = true ∧ ∃ st, e = .failed st) ∧
    (∀ e, y.state.ending r = some e → x.state.ending r = none → x.wire = [] →
      e = .failed .connectionDisconnected ∨ e = .retried ∨ y.starved = true ∧ ∃ st, e = .failed st) := by
  have hix := Exchange.reachable_inv (fun _ => hl) hx
  obtain ⟨got, hiy⟩ := Secured.reachable_inv hl htail hy
  refine ⟨?_, ?_, ?_⟩
  · intro e e' he he'
    rcases hix.settled.ended e he with hc | hst
    · rcases hiy.settled.ended e' he' with hc' | hst'
      · rw [hreused, hc'] at hc
        exact .inl hc.symm
      · exact .inr (.inr hst')
    · exact .inr (.inl hst)
  · rintro e he ⟨room, hstage⟩ hwire
    obtain ⟨_, _, hj⟩ := hiy.settled.waiting (by simp [State.ending, hstage])
    obtain ⟨records, rest, hstream, hframed, hgot⟩ := hiy.inStep (by simp [hstage]) (by simp [hstage])
    have hshort := hiy.short room hstage
    rw [hwire, List.append_nil] at hstream
    rw [hstream] at hshort
    obtain rfl : got = b := hframed.exhausted hshort hgot
    exact hix.settled.left hj he
  · intro e he hnone hwire
    obtain ⟨_, _, hj⟩ := hix.settled.waiting hnone
    have hgot := hix.bytes
    rw [hwire, List.append_nil] at hgot
    rw [hgot] at hj
    exact hiy.settled.left hj he

/-! ### Records one can write down -/

/-- A cipher that leaves everything as it is. -/
def clearAead : Aead := fun _ _ ciphertext _ => some ⟨ciphertext, rfl⟩

/-- A record of content, its type and padding, under that cipher. -/
def sealRecord (contentType : UInt8) (content : Bytes) (padding : ℕ) : Bytes :=
  let length := content.length + 1 + padding + tagLength
  [0x17, 3, 3, (length / 256).toUInt8, (length % 256).toUInt8] ++
    ((content ++ contentType :: List.replicate padding 0) ++ List.replicate tagLength 0)

theorem declaredLength_sealRecord {t : UInt8} {content : Bytes} {padding : ℕ} (h : content.length + 1 + padding ≤ 16385) :
    declaredLength (sealRecord t content padding) = content.length + 1 + padding + tagLength := by
  have htag : tagLength = 16 := rfl
  simp only [declaredLength, sealRecord, List.cons_append, List.getD_cons_succ, List.getD_cons_zero]
  rw [Nat.toUInt8_eq, Nat.toUInt8_eq, UInt8.toNat_ofNat', UInt8.toNat_ofNat']
  omega

theorem isRecord_sealRecord {t : UInt8} {content : Bytes} {padding : ℕ} (h : content.length + 1 + padding ≤ 16385) :
    IsRecord (sealRecord t content padding) := by
  rw [isRecord_iff, declaredLength_sealRecord h]
  simp [sealRecord]
  omega

theorem opens_sealRecord {t : UInt8} {content : Bytes} {padding seq : ℕ} (h : content.length + 1 + padding ≤ 16385) :
    Opens clearAead seq (sealRecord t content padding) (content ++ t :: List.replicate padding 0) := by
  have hd := declaredLength_sealRecord (t := t) h
  have htag : tagLength = 16 := rfl
  have hlen : (content ++ t :: List.replicate padding 0).length = content.length + 1 + padding := by
    simp
    omega
  refine ⟨isRecord_sealRecord h, rfl, ?_, ?_⟩
  · rw [hd, htag]
    show _ ≤ 16401
    omega
  · rw [hd, Nat.add_sub_cancel, clearAead]
    simp only [Option.map_some, Option.some.injEq]
    show (((content ++ t :: List.replicate padding 0) ++ List.replicate tagLength 0).take (content.length + 1 + padding)) = _
    rw [← hlen, List.take_left' rfl]

/-- The records of one answer: some of its headers and body, a ticket for a later session, a
change of the cipher, and the rest with some padding. -/
def threeBytesRecords : List Bytes :=
  [sealRecord 0x17 [1, 2, 3, 4, 5] 0, sealRecord 0x16 [4, 0, 0, 0] 3, [0x14, 3, 3, 0, 1, 1], sealRecord 0x17 [6, 7] 2]

theorem framed_threeBytesRecords : Framed clearAead 0 threeBytesRecords threeBytesAnswer.bytes := by
  show Framed clearAead 0 threeBytesRecords ([1, 2, 3, 4, 5] ++ ([6, 7] ++ []))
  refine .content (opens_sealRecord (by decide)) (.handshake (opens_sealRecord (by decide)) (.changeCipher ?_ rfl (by decide) ?_))
  · rw [isRecord_iff]
    decide
  · exact .content (opens_sealRecord (by decide)) .nil

/-- The same answer in the clear in two pieces, and in records that come in three. -/
theorem secured_as_plain_threeBytes :
    ∃ x y, (Exchange.plain threeBytes .small (fun _ => .getFileMdl 3) fun _ => threeBytesAnswer.bytes).Reachable x ∧
      (Secured.system threeBytes .large (.getFileMdl 3) threeBytesAnswer.bytes []).Reachable y ∧
      x.state.ending (.getFileMdl 3) = some (.delivered ⟨206, false, none, [5, 6, 7]⟩) ∧ y.state.ending (.getFileMdl 3) = x.state.ending (.getFileMdl 3) := by
  have hrunx : (run (Exchange.next threeBytes .small (fun _ => .getFileMdl 3) fun _ => threeBytesAnswer.bytes)
      ⟨[], start (.getFileMdl 3) (fun _ => 0) (fun _ => 0) (emptySocket false clearAead) false willing, false, [], threeBytesAnswer.bytes, false⟩
      [.received 6 willing, .received 1 willing]).any
        (fun x => x.state.ending (.getFileMdl 3) = some (.delivered ⟨206, false, none, [5, 6, 7]⟩) && !x.starved && !x.reused) = true := by decide +kernel
  have hruny : (run (Secured.next threeBytes .large (.getFileMdl 3))
      ⟨start (.getFileMdl 3) (fun _ => 0) (fun _ => 9) (emptySocket true clearAead) false willing, false, threeBytesRecords.flatten, false⟩
      [.drained willing, .received 3 willing, .drained willing, .received 60 willing, .drained willing, .drained willing, .drained willing,
        .drained willing, .received 40 willing, .drained willing]).any
        (fun y => (y.state.ending (.getFileMdl 3)).isSome && !y.starved && !y.reused) = true := by decide +kernel
  obtain ⟨x, hx, hokx⟩ := (Option.any_eq_true _ _).mp hrunx
  obtain ⟨y, hy, hoky⟩ := (Option.any_eq_true _ _).mp hruny
  have hnextx : ∀ x act x', Exchange.next threeBytes .small (fun _ => .getFileMdl 3) (fun _ => threeBytesAnswer.bytes) x act = some x' →
      (Exchange.plain threeBytes .small (fun _ => .getFileMdl 3) fun _ => threeBytesAnswer.bytes).step x x' := fun _ act _ h => ⟨act, h⟩
  have hnexty : ∀ y act y', Secured.next threeBytes .large (.getFileMdl 3) y act = some y' →
      (Secured.system threeBytes .large (.getFileMdl 3) threeBytesAnswer.bytes []).step y y' := fun _ act _ h => ⟨act, h⟩
  have hreachx := System.Reachable.run hnextx (.init ⟨_, _, _, _, _, ⟨Nat.le_refl 0, Nat.zero_le _⟩, rfl, rfl⟩) hx
  have hreachy := System.Reachable.run hnexty
    (.init ⟨fun _ => 0, fun _ => 9, emptySocket true clearAead, willing, threeBytesRecords, ⟨Nat.le_refl 0, Nat.zero_le _⟩, rfl, framed_threeBytesRecords, (List.append_nil _).symm, rfl, rfl⟩) hy
  simp only [Bool.and_eq_true, decide_eq_true_eq, Bool.not_eq_true'] at hokx hoky
  obtain ⟨⟨hex, hsx⟩, hrx⟩ := hokx
  obtain ⟨⟨hey, hsy⟩, hry⟩ := hoky
  obtain ⟨e, he⟩ := Option.isSome_iff_exists.mp hey
  refine ⟨x, y, hreachx, hreachy, hex, ?_⟩
  rcases (secured_as_plain (threeBytesAnswer.proper _) (.inl rfl) hreachx hreachy (hrx.trans hry.symm)).1 _ _ hex he with h | ⟨h, _⟩ | ⟨h, _⟩
  · rw [he, hex, h]
  · rw [hsx] at h
    cases h
  · rw [hsy] at h
    cases h

/-! ### Headers that are too long -/

/-- A request on a secured connection that has `n` bytes of headers, with `stream` in the
accumulator. -/
structure Heading (size : SystemSize) (r : Request) (n : ℕ) (stream : Bytes) (s : State) : Prop where
  inv : Inv r size s
  stage : s.stage = .draining
  tls : s.socket.tls = true
  aead : s.socket.aead = clearAead
  unparsed : s.ctx.bodyOffset = 0
  length : s.ctx.length = n
  pending : s.socket.acc.pending = stream

/-- Headers that have not ended within their limit: more is waited for, until the limit is
reached. -/
theorem read_head {s : State} {k : Choice} (hparse : ∀ b : Bytes, b.length ≤ maxHeaderBytes → parse b = .incomplete) (hk : k.Willing)
    (htls : s.socket.tls = true) (h0 : s.ctx.bodyOffset = 0) (hlen : s.ctx.length ≤ maxHeaderBytes) :
    s.read parse r k = if maxHeaderBytes ≤ s.ctx.length then { s with stage := .failed .invalidNetworkResponse } else { s with stage := .draining } := by
  have hinc : parse (load s.ctx.buffer 0 s.ctx.length) = .incomplete := by
    apply hparse
    rw [length_load]
    exact hlen
  have hmax : maxHeaderBytes = 65536 := by decide
  have hin : ∀ n code hs, parse (load s.ctx.buffer 0 s.ctx.length) = .complete n code hs → n ≤ s.ctx.length := by
    intro n code hs h
    rw [hinc] at h
    cases h
  have hread := readResponse_head (r := r) (k := k) h0 (by omega) hin
  unfold State.read
  generalize readResponse parse r k s.ctx = v at hread
  cases hread with
  | more _ hlt =>
    rw [if_neg (by omega)]
    simp [State.issue, hk.2.2, htls]
  | endless _ hge => rw [if_pos hge]
  | malformed hp | refused hp | refusedHeaded hp | overrun hp | unplaced hp | placed hp =>
    rw [hinc] at hp
    cases hp

/-- A record of headers that have not ended yet. -/
theorem Heading.drained {s : State} {n padding : ℕ} {content more : Bytes} {k : Choice} (h : Heading size r n (sealRecord 0x17 content padding ++ more) s)
    (hparse : ∀ b : Bytes, b.length ≤ maxHeaderBytes → parse b = .incomplete) (hk : k.Willing) (hc : content.length + 1 + padding ≤ 16385)
    (hn : n + content.length ≤ maxHeaderBytes) :
    if maxHeaderBytes ≤ n + content.length then (s.drained parse size r k).stage = .failed .invalidNetworkResponse
    else Heading size r (n + content.length) more (s.drained parse size r k) := by
  have hw := h.inv.waiting (by rw [h.stage]; trivial)
  have hfits := h.inv.fits
  have ho : Opens s.socket.aead s.socket.readSeq (sealRecord 0x17 content padding) (content ++ 0x17 :: List.replicate padding 0) := by
    rw [h.aead]
    exact opens_sealRecord hc
  have hstream : s.socket.acc.pending ++ [] = sealRecord 0x17 content padding ++ more := by rw [List.append_nil, h.pending]
  have hlen : s.ctx.length ≤ maxHeaderBytes + 7 + maxContentLength := by
    have := h.length
    omega
  rcases drain_front (r := r) (k := k) (c := s.ctx) hfits ho.whole hstream ho.declared_le (.inr ⟨ho.type, ho.long (by simp)⟩) with hd | ⟨hbuf, hdecl, hd⟩
  · have hsafe := drain_safe (k := k) h.inv.bounded hw hfits
    rw [hd] at hsafe
    cases hsafe with
    | wait _ hshort =>
      rw [h.pending] at hshort
      exact (hshort.not_append ho.whole).elim
  · rw [if_neg (by rw [ho.type]; decide)] at hd
    obtain ⟨hfront, hstream'⟩ := front_record hfits hbuf ho.whole hstream
    rw [State.drained, hd]
    rcases openRecord_opens ho (.inr rfl) hfront hdecl h.inv.bounded hw hlen with ⟨_, _, hno⟩ | ⟨c₁, hk₁, _, _, hopen⟩
    · exact absurd hk hno
    · rw [if_neg (by decide)] at hopen
      generalize openRecord r k s.ctx s.socket = d at hopen
      have h0 : c₁.bodyOffset = 0 := hk₁.bodyOffset.trans h.unparsed
      cases hopen with
      | overrun _ hne => exact absurd h0 hne
      | next hx _ _ hne => exact absurd (hx.bodyOffset.trans h0) hne
      | @deliver c' hx hb ha _ =>
        have h0' : c'.bodyOffset = 0 := hx.bodyOffset.trans h0
        have hl' : c'.length = n + content.length := by rw [hx.length, hk₁.length, h.length]
        have hread := read_head (s := { s with ctx := c', socket := { s.socket with readSeq := s.socket.readSeq + 1, acc := s.socket.acc.consume } })
          (r := r) hparse hk h.tls h0' (by rw [hl']; exact hn)
        simp only [hl'] at hread
        simp only [State.turned]
        rw [hread]
        split_ifs with hge
        · rfl
        · refine ⟨⟨hb, hfits.consume hbuf, fun _ => ?_, (fun _ he => by cases he), (fun _ he => by cases he), fun _ => h.tls, fun _ he => by cases he⟩, rfl, h.tls, h.aead, h0', hl', ?_⟩
          · refine ⟨ha, fun _ => .inl ?_, fun hne => absurd h0' hne⟩
            show c'.length < maxHeaderBytes
            omega
          · simpa using hstream'

/-- Headers that end with what has come are read whatever their length. -/
theorem readResponse_ended {c : Context} {k : Choice} {code cl : ℕ} {hs : List Header} (hb : Bounded r c) (ha : Arrived r c) (hk : k.Willing)
    (h0 : c.bodyOffset = 0) (hp : parse (load c.buffer 0 c.length) = .complete c.length code hs) (hacc : accept r code hs = .ok cl)
    (hpos : 0 < c.length) (hcl : 0 < cl) (hlt : c.length + cl + 7 < maxULong) :
    ∃ c', readResponse parse r k c = (.again, c') ∧ c'.bodyOffset ≠ 0 ∧ c'.bodyEndOffset = c'.length + cl := by
  have hin : ∀ n code hs, parse (load c.buffer 0 c.length) = .complete n code hs → n ≤ c.length := by
    intro n code' hs' h
    rw [hp] at h
    exact Nat.le_of_eq (Parsed.complete.inj h).1.symm
  have hread := readResponse_head (r := r) (k := k) h0 (ha.length_lt hb (.inr h0)) hin
  generalize readResponse parse r k c = v at hread
  have hheaded : Headed (c.headed r c.length code hs cl) := headed_headed ha hb h0 (Nat.le_refl _) (accept_ok hacc).1 (by omega)
  cases hread with
  | more hp' | endless hp' | malformed hp' =>
    rw [hp] at hp'
    cases hp'
  | refused hp' hacc' | refusedHeaded hp' hacc' =>
    obtain ⟨_, rfl, rfl⟩ := Parsed.complete.inj (hp.symm.trans hp')
    rw [hacc] at hacc'
    cases hacc'
  | overrun hp' hacc' hover =>
    obtain ⟨rfl, rfl, rfl⟩ := Parsed.complete.inj (hp.symm.trans hp')
    omega
  | unplaced hp' hacc' _ hpl =>
    obtain ⟨rfl, rfl, rfl⟩ := Parsed.complete.inj (hp.symm.trans hp')
    obtain rfl := Except.ok.inj (hacc.symm.trans hacc')
    rcases placeBody_error hheaded hpl with ⟨_, hno⟩ | ⟨_, hbig⟩
    · simp [hk.1, hk.2.1] at hno
    · have : (c.headed r c.length code hs cl).bodyEndOffset = c.length + cl := rfl
      omega
  | @placed _ _ _ _ c' hp' hacc' _ hpl =>
    obtain ⟨rfl, rfl, rfl⟩ := Parsed.complete.inj (hp.symm.trans hp')
    obtain rfl := Except.ok.inj (hacc.symm.trans hacc')
    have hplaced := placeBody_spec hheaded hpl
    have h1 : c'.length - c'.bodyOffset = c.length - c.length := hplaced.length_eq
    have h2 : c.length ≤ c'.bodyOffset := hplaced.parsed
    have h3 : c'.contentLength = cl := hplaced.contentLength
    have h4 := hplaced.offset_le
    have h5 := hplaced.end_eq
    refine ⟨c', ?_, by omega, by omega⟩
    rw [await, if_pos (by omega)]

/-- The rest of a body, in one piece. -/
theorem received_rest {s : State} {k : Choice} {chunk : Bytes} (hb : Bounded r s.ctx) (hw : Waiting r s.ctx) (h0 : s.ctx.bodyOffset ≠ 0)
    (hc : chunk.length = (postOf r s.ctx).size) : ({ s with ctx := s.ctx.received (postOf r s.ctx) chunk }.read parse r k).stage = .responded := by
  have hx := received_extended hb hw (Nat.le_of_eq hc)
  have hsize : (postOf r s.ctx).size = s.ctx.bodyEndOffset - s.ctx.length := postOf_size_le h0
  have hshort := hw.short h0
  have hlen : (s.ctx.received (postOf r s.ctx) chunk).length = (s.ctx.received (postOf r s.ctx) chunk).bodyEndOffset := by
    rw [hx.length, hx.bodyEndOffset]
    omega
  unfold State.read
  simp only
  rw [readResponse_body (by rw [hx.bodyOffset]; exact h0), if_neg (by omega), await, if_neg (by omega)]

/-- A new connection on which `chunk` comes first. -/
theorem heading_start (buffer mdl : ℕ → UInt8) (reused : Bool) {chunk : Bytes} (hpos : 0 < chunk.length) (hle : chunk.length ≤ recvCapacity size) :
    ∃ s, next parse size r ((start r buffer mdl (emptySocket true clearAead) reused willing).postBulk size willing) (.received chunk willing) = some s ∧
      Heading size r 0 chunk s := by
  have hfits : (emptySocket true clearAead).acc.Fits size := ⟨Nat.le_refl 0, Nat.zero_le _⟩
  have hi : Inv r size (start r buffer mdl (emptySocket true clearAead) reused willing) := start_inv hfits
  have hw := hi.waiting trivial
  have hbuf : (emptySocket true clearAead).acc.buffered < recordMax := by decide
  have hi' := postBulk_inv (k := willing) hi hw rfl hbuf
  have hroom : ((emptySocket true clearAead).acc.settle size).room size = recvCapacity size := by
    rw [hfits.settle.room_eq]
    rfl
  have hlen : chunk.length ≤ ((emptySocket true clearAead).acc.settle size).room size := by
    rw [hroom]
    exact hle
  refine ⟨_, if_pos ⟨hpos, hlen⟩, ?_⟩
  refine ⟨issue_inv hi'.bounded (hi'.waiting trivial) (hfits.settle.arrive hlen), rfl, rfl, rfl, rfl, rfl, ?_⟩
  show (((emptySocket true clearAead).acc.settle size).arrive chunk).pending = chunk
  rw [hfits.settle.pending_arrive hlen, hfits.pending_settle]
  rfl

theorem length_flatten_replicate (n : ℕ) (l : Bytes) : (List.replicate n l).flatten.length = n * l.length := by simp

theorem framed_replicate {content : Bytes} (hc : content.length + 1 + 0 ≤ 16385) (seq n : ℕ) :
    Framed clearAead seq (List.replicate n (sealRecord 0x17 content 0)) (List.replicate n content).flatten := by
  induction n generalizing seq with
  | zero => exact .nil
  | succ n ih =>
    rw [List.replicate_succ, List.replicate_succ, List.flatten_cons]
    exact .content (opens_sealRecord hc) (ih (seq + 1))

/-- One more turn of a run. -/
theorem reachable_drained (hy : (Secured.system parse size r b tail).Reachable y) (hstage : y.state.stage = .draining) :
    ∃ y', (Secured.system parse size r b tail).Reachable y' ∧ y'.state = y.state.drained parse size r willing ∧ y'.wire = y.wire ∧
      y'.reused = y.reused ∧ y'.starved = y.starved := by
  have hnext : next parse size r y.state (.drained willing) = some (y.state.drained parse size r willing) := by
    rw [next, hstage]
  refine ⟨_, hy.step ⟨.drained willing, Option.map_eq_some_iff.mpr ⟨_, hnext, rfl⟩⟩, rfl, rfl, rfl, ?_⟩
  exact Bool.or_false _

theorem reachable_received {s : State} {chunk rest : Bytes} (hy : (Secured.system parse size r b tail).Reachable y) (hwire : y.wire = chunk ++ rest)
    (hs : next parse size r y.state (.received chunk willing) = some s) :
    ∃ y', (Secured.system parse size r b tail).Reachable y' ∧ y'.state = s ∧ y'.reused = y.reused ∧ y'.starved = y.starved := by
  have htake : y.wire.take chunk.length = chunk := by
    rw [hwire]
    exact List.take_left' rfl
  rw [← htake] at hs
  refine ⟨_, hy.step ⟨.received chunk.length willing, Option.map_eq_some_iff.mpr ⟨_, hs, rfl⟩⟩, rfl, rfl, ?_⟩
  exact Bool.or_false _

/-- Records of headers that reach the limit together: the request gives up. -/
theorem heading_given_up {content : Bytes} (hparse : ∀ b : Bytes, b.length ≤ maxHeaderBytes → parse b = .incomplete) (hc : content.length + 1 + 0 ≤ 16385)
    (hpos : 0 < content.length) (m : ℕ) : ∀ {n : ℕ} {more : Bytes} {y : Secured}, (Secured.system parse size r b tail).Reachable y →
      Heading size r n ((List.replicate (m + 1) (sealRecord 0x17 content 0)).flatten ++ more) y.state → n + (m + 1) * content.length = maxHeaderBytes →
      ∃ y', (Secured.system parse size r b tail).Reachable y' ∧ y'.reused = y.reused ∧ y'.starved = y.starved ∧
        y'.state.ending r = some (.failed .invalidNetworkResponse) := by
  induction m with
  | zero =>
    intro n more y hy hh hn
    rw [List.replicate_one, List.flatten_singleton] at hh
    have hd := hh.drained hparse ⟨rfl, rfl, rfl⟩ hc (k := willing) (by omega)
    rw [if_pos (by omega)] at hd
    obtain ⟨y', hy', hstate, _, hreused, hstarved⟩ := reachable_drained hy hh.stage
    rw [← hstate] at hd
    refine ⟨y', hy', hreused, hstarved, ?_⟩
    rw [State.ending, hd]
  | succ m ih =>
    intro n more y hy hh hn
    rw [Nat.succ_mul] at hn
    rw [List.replicate_succ, List.flatten_cons, List.append_assoc] at hh
    have hd := hh.drained hparse ⟨rfl, rfl, rfl⟩ hc (k := willing) (by omega)
    have hlt : 0 < (m + 1) * content.length := Nat.mul_pos (Nat.succ_pos m) hpos
    rw [if_neg (by omega)] at hd
    obtain ⟨y', hy', hstate, _, hreused, hstarved⟩ := reachable_drained hy hh.stage
    rw [← hstate] at hd
    obtain ⟨y'', hy'', hreused', hstarved', hend⟩ := ih hy' hd (by omega)
    exact ⟨y'', hy'', hreused'.trans hreused, hstarved'.trans hstarved, hend⟩

/-- Over a secured connection the headers may come in records that just reach the limit. -/
theorem secured_given_up {content : Bytes} {m more : ℕ} (hparse : ∀ b : Bytes, b.length ≤ maxHeaderBytes → parse b = .incomplete)
    (hc : content.length + 1 + 0 ≤ 16385) (hpos : 0 < content.length) (hm : (m + 1) * content.length = maxHeaderBytes)
    (hroom : (m + 1) * (sealRecord 0x17 content 0).length ≤ recvCapacity size) :
    ∃ y, (Secured.system parse size r (List.replicate (m + 1 + more) content).flatten []).Reachable y ∧ y.reused = false ∧ y.starved = false ∧
      y.state.ending r = some (.failed .invalidNetworkResponse) := by
  have hlen := length_flatten_replicate (m + 1) (sealRecord 0x17 content 0)
  have hpos' : 0 < (sealRecord 0x17 content 0).length := by simp [sealRecord]
  obtain ⟨s, hs, hh⟩ : ∃ s, next parse size r ((start r (fun _ => 0) (fun _ => 0) (emptySocket true clearAead) false willing).postBulk size willing)
      (.received (List.replicate (m + 1) (sealRecord 0x17 content 0)).flatten willing) = some s ∧
      Heading size r 0 (List.replicate (m + 1) (sealRecord 0x17 content 0)).flatten s := by
    apply heading_start
    · rw [hlen]
      exact Nat.mul_pos (Nat.succ_pos m) hpos'
    · rw [hlen]
      exact hroom
  have hinit : (Secured.system parse size r (List.replicate (m + 1 + more) content).flatten []).init
      ⟨start r (fun _ => 0) (fun _ => 0) (emptySocket true clearAead) false willing, false,
        (List.replicate (m + 1 + more) (sealRecord 0x17 content 0)).flatten, false⟩ :=
    ⟨_, _, emptySocket true clearAead, willing, _, ⟨Nat.le_refl 0, Nat.zero_le _⟩, rfl, framed_replicate hc 0 _, (List.append_nil _).symm, rfl, rfl⟩
  obtain ⟨y, hy, hstate, hwire, hreused, hstarved⟩ := reachable_drained (.init hinit) rfl
  have hbulk : y.state = (start r (fun _ => 0) (fun _ => 0) (emptySocket true clearAead) false willing).postBulk size willing := by
    have hwait : drain r willing (.fresh r (fun _ => 0) fun _ => 0) (emptySocket true clearAead) = .wait := if_pos (by decide)
    rw [hstate, State.drained]
    show State.turned parse size r willing _ (drain r willing (.fresh r (fun _ => 0) fun _ => 0) (emptySocket true clearAead)) = _
    rw [hwait, State.turned]
  rw [← hbulk] at hs
  rw [List.replicate_add, List.flatten_append] at hwire
  obtain ⟨y', hy', hstate', hreused', hstarved'⟩ := reachable_received hy hwire hs
  rw [← hstate', ← List.append_nil (List.flatten _)] at hh
  obtain ⟨y'', hy'', hreused'', hstarved'', hend⟩ := heading_given_up hparse hc hpos m hy' hh (by omega)
  exact ⟨y'', hy'', hreused''.trans (hreused'.trans hreused), hstarved''.trans (hstarved'.trans hstarved), hend⟩

/-- After such headers the rest is posted for. -/
theorem read_ended {s : State} {code cl : ℕ} {hs : List Header} (hb : Bounded r s.ctx) (ha : Arrived r s.ctx) (hf : s.socket.acc.Fits size)
    (htls : s.socket.tls = false) (h0 : s.ctx.bodyOffset = 0) (hp : parse (load s.ctx.buffer 0 s.ctx.length) = .complete s.ctx.length code hs)
    (hacc : accept r code hs = .ok cl) (hpos : 0 < s.ctx.length) (hcl : 0 < cl) (hlt : s.ctx.length + cl + 7 < maxULong) :
    ∃ s', s.read parse r willing = s' ∧ Inv r size s' ∧ s'.stage = .receiving (postOf r s'.ctx) ∧ s'.ctx.bodyOffset ≠ 0 ∧
      s'.ctx.bodyEndOffset = s'.ctx.length + cl := by
  have hin : s.ctx.bodyOffset = 0 → ∀ n code hs, parse (load s.ctx.buffer 0 s.ctx.length) = .complete n code hs → n ≤ s.ctx.length := by
    intro _ n code' hs' h
    rw [hp] at h
    exact Nat.le_of_eq (Parsed.complete.inj h).1.symm
  have hi := read_inv (k := willing) hin hb ha hf
  obtain ⟨c, hread, hc0, hend⟩ := readResponse_ended hb ha (k := willing) ⟨rfl, rfl, rfl⟩ h0 hp hacc hpos hcl hlt
  obtain ⟨hbc, hwc⟩ := readResponse_spec hin hb ha hread
  have hstate : s.read parse r willing = State.issue r willing { s with ctx := c } := by rw [State.read, hread]
  have hissue : ∃ c' post, issueReceive r willing c = .ok (c', post) := by
    cases he : issueReceive r willing c with
    | error st => cases issueReceive_error (hwc rfl) he
    | ok q => exact ⟨q.1, q.2, rfl⟩
  obtain ⟨c', post, he⟩ := hissue
  obtain ⟨hkept, _, _, hpost, _⟩ := issueReceive_spec hbc (hwc rfl) he
  have hfinal : s.read parse r willing = { s with ctx := c', stage := .receiving post } := by
    rw [hstate, State.issue]
    simp only [willing, htls]
    rw [show issueReceive r ⟨true, true, fun _ => 0, none⟩ c = .ok (c', post) from he]
    rfl
  rw [hfinal] at hi
  refine ⟨_, hfinal, hi, ?_, ?_, ?_⟩
  · rw [hpost]
  · show c'.bodyOffset ≠ 0
    rw [hkept.bodyOffset]
    exact hc0
  · show c'.bodyEndOffset = c'.length + cl
    rw [hkept.bodyEndOffset, hkept.length]
    exact hend

/-- One more receive of a run. -/
theorem Exchange.reachable_received {s : State} {chunk rest : Bytes} (hx : (plain parse size (fun _ => r) fun _ => b).Reachable x)
    (hwire : x.wire = chunk ++ rest) (hs : Http.next parse size r x.state (.received chunk willing) = some s) :
    ∃ x', (plain parse size (fun _ => r) fun _ => b).Reachable x' ∧ x'.state = s ∧ x'.wire = rest ∧ x'.reused = x.reused ∧ x'.starved = x.starved := by
  have htake : x.wire.take chunk.length = chunk := by
    rw [hwire]
    exact List.take_left' rfl
  have hdrop : x.wire.drop chunk.length = rest := by
    rw [hwire]
    exact List.drop_left' rfl
  rw [← htake] at hs
  refine ⟨_, hx.step ⟨.received chunk.length willing, Option.map_eq_some_iff.mpr ⟨_, hs, rfl⟩⟩, rfl, hdrop, rfl, ?_⟩
  exact Bool.or_false _

/-- The first receive of a request in the clear is for all of its buffer. -/
theorem start_posted (hcap : 0 < r.capacity) : ∃ c, start r (fun _ => 0) (fun _ => 0) (emptySocket false clearAead) false willing =
    { ctx := c, socket := emptySocket false clearAead, reused := false, stage := .receiving ⟨.buffer, 0, r.capacity⟩ } ∧ c.length = 0 ∧
      c.bodyOffset = 0 ∧ c.capacity = r.capacity := by
  have hsize : ulongSub r.capacity 0 = r.capacity := ulongSub_of_le (Nat.zero_le _) (capacity_lt r)
  have hissue : issueReceive r willing (.fresh r (fun _ => 0) fun _ => 0) =
      .ok ((Context.fresh r (fun _ => 0) fun _ => 0).note [.difference r.capacity 0, .posted r.capacity, .bufferWrite 0 r.capacity r.capacity],
        ⟨.buffer, 0, r.capacity⟩) := by
    simp [issueReceive, Context.fresh, Nat.ne_of_lt hcap, bind, Except.bind, hsize]
  refine ⟨(Context.fresh r (fun _ => 0) fun _ => 0).note [.difference r.capacity 0, .posted r.capacity, .bufferWrite 0 r.capacity r.capacity],
    ?_, rfl, rfl, rfl⟩
  rw [start, State.issue]
  simp only [willing, emptySocket]
  rw [show issueReceive r ⟨true, true, fun _ => 0, none⟩ (.fresh r (fun _ => 0) fun _ => 0) = _ from hissue]
  rfl

/-- In the clear the headers may come in one piece, and then their length is not looked at. -/
theorem plain_delivered {head body : Bytes} {code : ℕ} {hs : List Header} (hp : parse head = .complete head.length code hs)
    (hacc : accept r code hs = .ok body.length) (hhead : 0 < head.length) (hbody : 0 < body.length) (hcap : head.length ≤ r.capacity)
    (hlt : head.length + body.length + 7 < maxULong) :
    ∃ x d, (Exchange.plain parse size (fun _ => r) fun _ => head ++ body).Reachable x ∧ x.reused = false ∧ x.starved = false ∧
      x.state.ending r = some (.delivered d) := by
  have hfits : (emptySocket false clearAead).acc.Fits size := ⟨Nat.le_refl 0, Nat.zero_le _⟩
  obtain ⟨c, hstart, hlen, h0, hc⟩ := start_posted (r := r) (by omega)
  have hi : Inv r size (start r (fun _ => 0) (fun _ => 0) (emptySocket false clearAead) false willing) := start_inv hfits
  have hinit : (Exchange.plain parse size (fun _ => r) fun _ => head ++ body).init
      ⟨[], start r (fun _ => 0) (fun _ => 0) (emptySocket false clearAead) false willing, false, [], head ++ body, false⟩ :=
    ⟨_, _, emptySocket false clearAead, false, willing, hfits, rfl, rfl⟩
  rw [hstart] at hi hinit
  -- the headers, in the first receive
  have hpost : (⟨.buffer, 0, r.capacity⟩ : Post) = postOf r c := (hi.posted _ rfl).1
  have hw := hi.waiting trivial
  have hfirst : head.length ≤ (postOf r c).size := by
    rw [← hpost]
    exact hcap
  obtain ⟨hb₁, ha₁⟩ := received_spec hi.bounded hw hfirst
  have hx₁ := received_extended hi.bounded hw hfirst
  have hlen₁ : (c.received (postOf r c) head).length = head.length := by rw [hx₁.length, hlen, Nat.zero_add]
  have h0₁ : (c.received (postOf r c) head).bodyOffset = 0 := hx₁.bodyOffset.trans h0
  have hload : load (c.received (postOf r c) head).buffer 0 (c.received (postOf r c) head).length = head := by
    have hsofar := hx₁.soFar
    rw [Context.soFar, if_pos h0₁, Context.soFar, if_pos h0, hlen] at hsofar
    exact hsofar
  have hp₁ : parse (load (c.received (postOf r c) head).buffer 0 (c.received (postOf r c) head).length) =
      .complete (c.received (postOf r c) head).length code hs := by
    rw [hload, hlen₁]
    exact hp
  obtain ⟨s₁, hs₁, hi₁, hstage₁, hne₁, hend₁⟩ := read_ended (s := ⟨c.received (postOf r c) head, emptySocket false clearAead, false, .receiving (postOf r c)⟩)
    hb₁ ha₁ hfits rfl h0₁ hp₁ hacc (by rw [hlen₁]; exact hhead) hbody (by rw [hlen₁]; exact hlt)
  have hnext₁ : next parse size r ⟨c, emptySocket false clearAead, false, .receiving ⟨.buffer, 0, r.capacity⟩⟩ (.received head willing) = some s₁ := by
    rw [hpost, ← hs₁, next]
    simp only
    rw [if_pos ⟨hhead, hfirst⟩]
  obtain ⟨x₁, hreach₁, rfl, hwire₁, hreused₁, hstarved₁⟩ := Exchange.reachable_received (.init hinit) rfl hnext₁
  -- the body, in the second
  have hw₁ := hi₁.waiting (by rw [hstage₁]; trivial)
  have hsecond : body.length = (postOf r x₁.state.ctx).size := by
    rw [postOf_size_le hne₁]
    omega
  have hstage₂ : ({ x₁.state with ctx := x₁.state.ctx.received (postOf r x₁.state.ctx) body }.read parse r willing).stage = .responded :=
    received_rest hi₁.bounded hw₁ hne₁ hsecond
  have hnext₂ : next parse size r x₁.state (.received body willing) =
      some ({ x₁.state with ctx := x₁.state.ctx.received (postOf r x₁.state.ctx) body }.read parse r willing) := by
    simp only [next, hstage₁]
    rw [if_pos ⟨hbody, Nat.le_of_eq hsecond⟩]
  rw [← List.append_nil body] at hwire₁
  obtain ⟨x₂, hreach₂, hstate₂, _, hreused₂, hstarved₂⟩ := Exchange.reachable_received hreach₁ hwire₁ hnext₂
  rw [← hstate₂] at hstage₂
  refine ⟨x₂, x₂.state.ctx.delivered r, hreach₂, hreused₂.trans hreused₁, hstarved₂.trans hstarved₁, ?_⟩
  rw [State.ending, hstage₂]

/-- Headers one byte longer than their limit, and as many bytes of body as fill the records. -/
def longHeaders (b : Bytes) : Parsed :=
  if b.length ≤ maxHeaderBytes then .incomplete else .complete (maxHeaderBytes + 1) 206 [⟨ascii "content-length", ascii "65535"⟩]

theorem longHeaders_consistent (b : Bytes) : Consistent longHeaders b where
  start := if_pos (Nat.zero_le _)
  stable {p q} hpq _ hne := by
    have hle := hpq.length_le
    unfold longHeaders at hne ⊢
    split_ifs at hne ⊢ <;> first | rfl | contradiction | omega
  inside {p n code hs} _ he := by
    unfold longHeaders at he
    split_ifs at he with hle
    obtain ⟨rfl, _⟩ := Parsed.complete.inj he
    omega

/-- Eight full records of zeros. -/
def longStream : Bytes := (List.replicate (3 + 1 + 4) (List.replicate 16384 0)).flatten

theorem length_longStream : longStream.length = 131072 := by
  rw [longStream, length_flatten_replicate, List.length_replicate]

/-- What is one response, with headers beyond the limit, is delivered in the clear and given up
in records. -/
theorem longHeaders_differ :
    Consistent longHeaders longStream ∧ (∀ p d, p <+: longStream → judge longHeaders (.getFile 65535) p = .delivered d → p = longStream) ∧
    ∃ x y d, (Exchange.plain longHeaders .small (fun _ => .getFile 65535) fun _ => longStream).Reachable x ∧
      (Secured.system longHeaders .small (.getFile 65535) longStream []).Reachable y ∧ x.reused = y.reused ∧ x.starved = false ∧ y.starved = false ∧
      x.state.ending (.getFile 65535) = some (.delivered d) ∧ y.state.ending (.getFile 65535) = some (.failed .invalidNetworkResponse) := by
  have hmax : maxHeaderBytes = 65536 := by decide
  have hul : maxULong = 4294967295 := by decide
  have hacc : accept (.getFile 65535) 206 [⟨ascii "content-length", ascii "65535"⟩] = .ok 65535 := by decide +kernel
  have htake : (longStream.take 65537).length = 65537 := by
    rw [List.length_take, length_longStream]
    rfl
  have hdrop : (longStream.drop 65537).length = 65535 := by
    rw [List.length_drop, length_longStream]
  have hhead : longHeaders (longStream.take 65537) =
      .complete (longStream.take 65537).length 206 [⟨ascii "content-length", ascii "65535"⟩] := by
    rw [longHeaders, if_neg (by omega), htake, hmax]
  have hcap : (Request.getFile 65535).capacity = 67583 := by decide
  refine ⟨longHeaders_consistent _, ?_, ?_⟩
  · intro p d hp hj
    have hlen := length_longStream
    unfold judge longHeaders at hj
    by_cases hshort : p.length ≤ maxHeaderBytes
    · simp only [if_pos hshort] at hj
      split_ifs at hj
    · simp only [if_neg hshort, hacc] at hj
      split_ifs at hj with h1 h2
      exact hp.eq_of_length (by omega)
  · have hplain : ∃ x d, (Exchange.plain longHeaders .small (fun _ => .getFile 65535) fun _ => longStream.take 65537 ++ longStream.drop 65537).Reachable x ∧
        x.reused = false ∧ x.starved = false ∧ x.state.ending (.getFile 65535) = some (.delivered d) := by
      apply plain_delivered hhead
      · rw [hdrop]
        exact hacc
      all_goals omega
    obtain ⟨x, d, hx, hrx, hsx, hex⟩ := hplain
    rw [List.take_append_drop] at hx
    have hfull : (List.replicate 16384 (0 : UInt8)).length = 16384 := List.length_replicate
    have hrecord : (sealRecord 0x17 (List.replicate 16384 0) 0).length = 16406 := by
      have hrec : IsRecord (sealRecord 0x17 (List.replicate 16384 0) 0) := isRecord_sealRecord (by omega)
      rw [(isRecord_iff.mp hrec).2, declaredLength_sealRecord (by omega), hfull]
      decide
    have hinc : ∀ b : Bytes, b.length ≤ maxHeaderBytes → longHeaders b = .incomplete := fun b hb => if_pos hb
    have hroom : (3 + 1) * (sealRecord 0x17 (List.replicate 16384 0) 0).length ≤ recvCapacity .small := by
      rw [hrecord]
      decide
    have hm : (3 + 1) * (List.replicate 16384 (0 : UInt8)).length = maxHeaderBytes := by
      rw [hfull]
      exact hmax.symm
    obtain ⟨y, hy, hry, hsy, hey⟩ := secured_given_up hinc (by omega) (by omega) hm hroom
    exact ⟨x, y, d, hx, hy, hrx.trans hry.symm, hsx, hsy, hex, hey⟩

end BlorgFS.Http
