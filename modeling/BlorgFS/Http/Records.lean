import BlorgFS.Http.Delivery

/-! A response that comes in records. The records are taken off the accumulator of the
connection in order, each is opened with the next sequence number, and their contents make up
the stream a request in the clear would have received; records that carry none of it change
nothing of what is there. -/

namespace BlorgFS.Http

open Lib Tls

/-- A record of application data that decrypts to `plaintext` as number `seq`. -/
structure Opens (aead : Aead) (seq : ℕ) (record plaintext : Bytes) : Prop where
  whole : IsRecord record
  type : record.getD 0 0 = 0x17
  declared_le : declaredLength record ≤ ciphertextMax
  opened : (aead seq (record.take 5) ((record.drop 5).take (declaredLength record - tagLength))
    (record.drop (5 + (declaredLength record - tagLength)))).map Subtype.val = some plaintext

/-- Records from number `seq` on that carry the stream `b`: changes of the cipher that nothing
comes of, handshake messages that are discarded, and content, with any padding. -/
inductive Framed (aead : Aead) : ℕ → List Bytes → Bytes → Prop
  | nil {seq : ℕ} : Framed aead seq [] []
  | changeCipher {seq : ℕ} {record : Bytes} {records : List Bytes} {b : Bytes} : IsRecord record → record.getD 0 0 = 0x14 →
      declaredLength record ≤ ciphertextMax → Framed aead seq records b → Framed aead seq (record :: records) b
  | handshake {seq : ℕ} {record message : Bytes} {padding : ℕ} {records : List Bytes} {b : Bytes} :
      Opens aead seq record (message ++ 0x16 :: List.replicate padding 0) → Framed aead (seq + 1) records b → Framed aead seq (record :: records) b
  | content {seq : ℕ} {record content : Bytes} {padding : ℕ} {records : List Bytes} {b : Bytes} :
      Opens aead seq record (content ++ 0x17 :: List.replicate padding 0) → Framed aead (seq + 1) records b →
      Framed aead seq (record :: records) (content ++ b)

variable {aead : Aead} {seq : ℕ} {record : Bytes} {records : List Bytes} {parse : Bytes → Parsed} {size : SystemSize} {r : Request}
  {k : Choice} {c c' : Context} {socket : Socket} {s : State} {b p wire tail : Bytes} {starved : Bool}

/-- When no record is left in full, everything they carried has come. -/
theorem Framed.exhausted {rest got : Bytes} (hf : Framed aead seq records rest) (hs : Short (records.flatten ++ tail)) (hgot : got ++ rest = b) :
    got = b := by
  cases hf with
  | nil => simpa using hgot
  | changeCipher hrec =>
    rw [List.flatten_cons, List.append_assoc] at hs
    exact (hs.not_append hrec).elim
  | handshake ho =>
    rw [List.flatten_cons, List.append_assoc] at hs
    exact (hs.not_append ho.whole).elim
  | content ho =>
    rw [List.flatten_cons, List.append_assoc] at hs
    exact (hs.not_append ho.whole).elim

/-! ### The record at the front -/

theorem front_header (hf : socket.acc.Fits size) (h5 : 5 ≤ socket.acc.buffered) (hr : IsRecord record) {more : Bytes}
    (he : socket.acc.pending ++ wire = record ++ more) :
    socket.acc.header.getD 0 0 = record.getD 0 0 ∧ socket.acc.declared = declaredLength record := by
  have hlen := (isRecord_iff.mp hr).1
  have hpl : 5 ≤ socket.acc.pending.length := by
    rw [hf.length_pending]
    exact h5
  have htake : socket.acc.pending.take 5 = record.take 5 := by
    have := congrArg (List.take 5) he
    rwa [List.take_append_of_le_length hpl, List.take_append_of_le_length hlen] at this
  constructor
  · rw [hf.header_eq h5, htake]
    simp [List.getD_eq_getElem?_getD, List.getElem?_take_of_lt]
  · rw [hf.declared_eq h5, ← declaredLength_take (l := socket.acc.pending) (Nat.le_refl 5), htake, declaredLength_take (Nat.le_refl 5)]

theorem front_record (hf : socket.acc.Fits size) (hw : 5 + socket.acc.declared ≤ socket.acc.buffered) (hr : IsRecord record) {more : Bytes}
    (he : socket.acc.pending ++ wire = record ++ more) : socket.acc.record = record ∧ socket.acc.consume.pending ++ wire = more := by
  rw [hf.pending_consume hw, List.append_assoc] at he
  exact Framing.Whole.append_inj (hf.isRecord_record hw) hr he

/-! ### Opening it -/

/-- What has been received so far is far from filling a buffer. -/
theorem Holds.length_le (hh : Holds parse r p c) (hl : Legible parse p) (hw : Waiting r c) : c.length ≤ maxHeaderBytes + 7 + maxContentLength := by
  have hend := hw.end_eq
  have hcl := hw.content_le
  by_cases h0 : c.bodyOffset = 0
  · have := hw.unparsed h0
    omega
  · have hshort := hw.short h0
    rw [Holds, if_neg h0] at hh
    obtain ⟨n, code, hs, hr⟩ := hh
    have hn := hl.consumed_le (List.prefix_refl p) hr.parsed
    have hnear := hr.near
    omega

theorem destination_error {n : ℕ} {st : Status} (hw : Waiting r c) (hn : c.length + n ≤ maxULong) (he : destination r k c n = .error st) : ¬ k.Willing := by
  rintro ⟨hpool, hmapped, _⟩
  unfold destination at he
  split_ifs at he with ht h1
  · have := hw.short ht.2
    omega
  · cases hg : c.grow (c.length + n) k with
    | ok c₁ => simp [hg, bind, Except.bind] at he
    | error st₁ =>
      rcases grow_error hg with ⟨_, hbig⟩ | ⟨_, hp⟩
      · omega
      · rw [hpool] at hp
        cases hp

/-- A record that is opened: the request is denied memory, or what is there of the response is
kept and the content, if it is any, counted. -/
theorem openRecord_opens {content : Bytes} {t : UInt8} {padding : ℕ} (ho : Opens socket.aead socket.readSeq record (content ++ t :: List.replicate padding 0))
    (ht : t = 0x16 ∨ t = 0x17) (hrec : socket.acc.record = record) (hdecl : socket.acc.declared = declaredLength record)
    (hb : Bounded r c) (hw : Waiting r c) (hlen : c.length ≤ maxHeaderBytes + 7 + maxContentLength) :
    (∃ st, openRecord r k c socket = .failed st c ∧ ¬ k.Willing) ∨
      ∃ c₁, Kept c c₁ ∧ Bounded r c₁ ∧ Waiting r c₁ ∧
        if t = 0x16 then openRecord r k c socket = .next c₁ { socket with readSeq := socket.readSeq + 1, acc := socket.acc.consume }
        else Accounted r c₁ content { socket with readSeq := socket.readSeq + 1, acc := socket.acc.consume } (openRecord r k c socket) := by
  have hle : socket.acc.declared - tagLength ≤ ciphertextMax := by
    have := ho.declared_le
    omega
  have hmax : ciphertextMax = 16401 := by decide
  have hh : maxHeaderBytes = 65536 := by decide
  have hcl : maxContentLength = 67108864 := by decide
  have hul : maxULong = 4294967295 := by decide
  unfold openRecord
  simp only
  cases hdest : destination r k c (socket.acc.declared - tagLength) with
  | error st => exact .inl ⟨st, rfl, destination_error hw (by omega) hdest⟩
  | ok q =>
    obtain ⟨c₁, dest⟩ := q
    obtain ⟨hk₁, hb₁, hw₁, hfits⟩ := destination_spec hb hw hle hdest
    have hopen := ho.opened
    rw [← hdecl, ← hrec] at hopen
    obtain ⟨plain, haead, hplain⟩ := Option.map_eq_some_iff.mp hopen
    simp only [haead]
    have hl : plain.1.length = socket.acc.declared - tagLength := by
      rw [plain.2, List.length_take, List.length_drop, Accumulator.length_record]
      omega
    have hfits' : DestFits r c₁ plain.1.length dest := by
      rw [hl]
      exact hfits
    have hk₂ := decrypted_kept hfits'
    have hb₂ := decrypted_bounded hb₁ hw₁ (by omega) hfits'
    have hw₂ := decrypted_waiting hw₁ hfits'
    have ht0 : t ≠ 0 := by
      rcases ht with rfl | rfl <;> decide
    have hstrip : stripInnerPlaintext plain.1 = some (t, content.length) := by
      rw [hplain]
      exact stripInnerPlaintext_append ht0 padding
    have htake : plain.1.take content.length = content := by
      rw [hplain]
      exact List.take_left' rfl
    have hn := stripInnerPlaintext_lt hstrip
    right
    refine ⟨c₁.decrypted plain.1 dest, hk₁.trans hk₂, hb₂, hw₂, ?_⟩
    simp only [hstrip]
    rcases ht with rfl | rfl
    · rfl
    · have hland := decrypted_landed hw₁ (Nat.le_of_lt hn) hfits'
      rw [htake] at hland
      simp only [htake]
      exact account_spec hb₂ hw₂ hland

theorem Opens.long {plaintext : Bytes} (ho : Opens aead seq record plaintext) (hne : plaintext ≠ []) : tagLength + 1 ≤ declaredLength record := by
  obtain ⟨plain, _, rfl⟩ := Option.map_eq_some_iff.mp ho.opened
  have hlen := plain.2.trans List.length_take
  have hpos := List.length_pos_iff.mpr hne
  omega

/-- With a record of the kinds there are at the front, the loop waits for the rest of it or
takes it off. -/
theorem drain_front (hf : socket.acc.Fits size) (hr : IsRecord record) {more : Bytes} (he : socket.acc.pending ++ wire = record ++ more)
    (hle : declaredLength record ≤ ciphertextMax)
    (ht : record.getD 0 0 = 0x14 ∨ record.getD 0 0 = 0x17 ∧ tagLength + 1 ≤ declaredLength record) :
    drain r k c socket = .wait ∨ 5 + socket.acc.declared ≤ socket.acc.buffered ∧ socket.acc.declared = declaredLength record ∧
      drain r k c socket = if record.getD 0 0 = 0x14 then .next c { socket with acc := socket.acc.consume } else openRecord r k c socket := by
  unfold drain
  by_cases h5 : socket.acc.buffered < 5
  · rw [if_pos h5]
    exact .inl rfl
  · obtain ⟨htype, hdecl⟩ := front_header hf (by omega) hr he
    rw [if_neg h5]
    simp only [htype, hdecl]
    have h15 : record.getD 0 0 ≠ 0x15 := by
      rcases ht with h | ⟨h, _⟩ <;> rw [h] <;> decide
    have hok : ¬ (ciphertextMax < declaredLength record ∨ record.getD 0 0 ≠ 0x17 ∧ record.getD 0 0 ≠ 0x14) := by
      rintro (h | ⟨h1, h2⟩)
      · omega
      · rcases ht with h | ⟨h, _⟩
        · exact h2 h
        · exact h1 h
    rw [if_neg h15, if_neg hok]
    by_cases hpart : socket.acc.buffered < 5 + declaredLength record
    · rw [if_pos hpart]
      exact .inl rfl
    · rw [if_neg hpart]
      refine .inr ⟨by omega, trivial, ?_⟩
      by_cases h14 : record.getD 0 0 = 0x14
      · rw [if_pos h14, if_pos h14]
      · have hlong := (ht.resolve_left h14).2
        rw [if_neg h14, if_neg h14, if_neg (by omega)]

/-! ### Every run over a secured connection -/

/-- A request on a connection whose handshake is done: whether it found the connection in the
pool, the ciphertext that has not been received, and whether the system denied it something. -/
structure Secured where
  state : State
  reused : Bool
  wire : Bytes
  starved : Bool

inductive SecuredAct where
  | received (n : ℕ) (k : Choice)
  | closed (k : Choice)
  | drained (k : Choice)

namespace Secured

variable (parse : Bytes → Parsed) (size : SystemSize) (r : Request)

def next (y : Secured) : SecuredAct → Option Secured
  | .received n k =>
    (Http.next parse size r y.state (.received (y.wire.take n) k)).map fun state =>
      { y with state, wire := y.wire.drop n, starved := y.starved || !decide k.Willing }
  | .closed k =>
    if y.wire = [] then
      (Http.next parse size r y.state (.closed k)).map fun state => { y with state, starved := y.starved || !decide k.Willing }
    else none
  | .drained k =>
    (Http.next parse size r y.state (.drained k)).map fun state => { y with state, starved := y.starved || !decide k.Willing }

/-- Every run of a request to which the peer sends records that carry `b`, and then `tail`.
Some of them may have been received already. -/
def system (b tail : Bytes) : System Secured where
  init y := ∃ buffer mdl socket k records, socket.acc.Fits size ∧ socket.tls = true ∧ Framed socket.aead socket.readSeq records b ∧
    socket.acc.pending ++ y.wire = records.flatten ++ tail ∧ y.state = start r buffer mdl socket y.reused k ∧ y.starved = !decide k.Willing
  step y y' := ∃ act, y.next parse size r act = some y'

variable {parse size r} {y y' : Secured}

/-- What is in the accumulator and to come are records that carry what is left of `b` behind
`got`, and then `tail`. -/
def InStep (b tail got wire : Bytes) (socket : Socket) : Prop :=
  ∃ records rest, socket.acc.pending ++ wire = records.flatten ++ tail ∧ Framed socket.aead socket.readSeq records rest ∧ got ++ rest = b

structure Inv (parse : Bytes → Parsed) (size : SystemSize) (r : Request) (b tail got : Bytes) (y : Secured) : Prop where
  state : Http.Inv r size y.state
  tls : y.state.socket.tls = true
  settled : Settled parse r y.reused b got y.starved y.state
  inStep : y.state.stage ≠ .connecting → (∀ st, y.state.stage ≠ .failed st) → InStep b tail got y.wire y.state.socket
  short : ∀ room, y.state.stage = .bulk room → Short y.state.socket.acc.pending

theorem issue_not_bulk (room : ℕ) : (s.issue r k).stage ≠ .bulk room := by
  unfold State.issue
  split
  · nofun
  · split_ifs
    · nofun
    · split <;> nofun

theorem read_not_bulk (room : ℕ) : (s.read parse r k).stage ≠ .bulk room := by
  unfold State.read
  split
  · exact issue_not_bulk room
  · nofun
  · nofun

/-- A request that waits for a record keeps what it has. -/
theorem postBulk_settled (hh : Holds parse r p s.ctx) (hj : judge parse r p = .waiting) (hk : ¬ k.Willing → starved = true) :
    Settled parse r s.reused b p starved (s.postBulk size k) := by
  unfold State.postBulk
  cases hr : k.refused with
  | some st => exact .of_starved rfl (hk fun hk => by simp [hk.2.2] at hr)
  | none => exact ⟨fun _ => ⟨rfl, hh.kept ((Kept.refl _).note _), hj⟩, nofun, nofun⟩

theorem postBulk_socket : (s.postBulk size k).socket = { s.socket with acc := s.socket.acc.settle size } := by
  unfold State.postBulk
  cases k.refused <;> rfl

section Turns

variable {got got' : Bytes}

/-- The loop goes on with what it has. -/
theorem inv_next (hstage : y.state.stage = .draining) (hreused : y.state.reused = y.reused) (hb : Bounded r c') (hw : Waiting r c')
    (hf : socket.acc.Fits size) (htls : socket.tls = true) (hh : Holds parse r got c') (hj : judge parse r got = .waiting)
    (hin : InStep b tail got y.wire socket) :
    Inv parse size r b tail got { y with state := { y.state with ctx := c', socket }, starved } where
  state := by
    refine ⟨hb, hf, fun _ => hw, ?_, ?_, fun _ => htls, ?_⟩ <;> intro _ h <;> simp [hstage] at h
  tls := htls
  settled := by
    refine ⟨fun _ => ⟨hreused, hh, hj⟩, ?_, ?_⟩
    · intro e he
      simp [State.ending, hstage] at he
    · intro h
      simp [hstage] at h
  inStep _ _ := hin
  short _ h := by simp [hstage] at h

/-- The response is looked at. -/
theorem inv_deliver (hl : Proper parse r b) (hreused : y.state.reused = y.reused) (hp : got <+: b) (hb : Bounded r c') (ha : Arrived r c')
    (hf : socket.acc.Fits size) (htls : socket.tls = true) (hh : Holds parse r got c') (hk : ¬ k.Willing → starved = true)
    (hin : InStep b tail got y.wire socket) :
    Inv parse size r b tail got { y with state := { y.state with ctx := c', socket }.read parse r k, starved } where
  state := read_inv (hh.consumed_le (hl.toLegible.of_part hp)) hb ha hf
  tls := by
    rw [read_socket]
    exact htls
  settled := by
    have hs := read_settled (s := { y.state with ctx := c', socket }) hl hp hb ha hk hh
    rwa [hreused] at hs
  inStep _ _ := by
    rw [read_socket]
    exact hin
  short _ h := absurd h (read_not_bulk _)

/-- No record is left in full, and more is waited for. -/
theorem inv_wait (hi : Inv parse size r b tail got y) (hstage : y.state.stage = .draining) (hbuf : y.state.socket.acc.buffered < recordMax)
    (hshort : Short y.state.socket.acc.pending) (hk : ¬ k.Willing → starved = true) : Inv parse size r b tail got { y with state := y.state.postBulk size k, starved } := by
  obtain ⟨hreused, hh, hj⟩ := hi.settled.waiting (by simp [State.ending, hstage])
  have hw := hi.state.waiting (by rw [hstage]; trivial)
  obtain ⟨records, rest, hstream, hframed, hgot⟩ := hi.inStep (by simp [hstage]) (by simp [hstage])
  refine ⟨postBulk_inv hi.state hw hi.tls hbuf, ?_, ?_, fun _ _ => ?_, fun _ _ => ?_⟩
  · rw [postBulk_socket]
    exact hi.tls
  · have hs : Settled parse r y.state.reused b got starved (y.state.postBulk size k) := postBulk_settled hh hj hk
    rwa [hreused] at hs
  · rw [postBulk_socket]
    refine ⟨records, rest, ?_, hframed, hgot⟩
    show (y.state.socket.acc.settle size).pending ++ y.wire = _
    rw [hi.state.fits.pending_settle]
    exact hstream
  · rw [postBulk_socket]
    show Short (y.state.socket.acc.settle size).pending
    rw [hi.state.fits.pending_settle]
    exact hshort

/-- What counting the content of a record comes to. -/
theorem inv_accounted {content : Bytes} {c₁ : Context} {d : Drained} (hi : Inv parse size r b tail got y) (hl : Proper parse r b)
    (hstage : y.state.stage = .draining) (hp : got ++ content <+: b) (hk₁ : Kept y.state.ctx c₁)
    (hacc : Accounted r c₁ content socket d) (hoff : c₁.bodyOffset ≤ c₁.length) (hend : c₁.bodyEndOffset = c₁.bodyOffset + c₁.contentLength)
    (hf : socket.acc.Fits size) (htls : socket.tls = true) (hk : ¬ k.Willing → starved = true)
    (hin : InStep b tail (got ++ content) y.wire socket) :
    Inv parse size r b tail (got ++ content) { y with state := y.state.turned parse size r k d, starved } := by
  obtain ⟨hreused, hh, _⟩ := hi.settled.waiting (by simp [State.ending, hstage])
  have hh₁ := hh.kept hk₁
  cases hacc with
  | overrun hb h0 hover =>
    have hover' : judge parse r (got ++ content) = .failed .invalidParameter := by
      rw [Holds, if_neg h0] at hh₁
      obtain ⟨n, code, hs, hr⟩ := hh₁
      have hpre : got <+: got ++ content := List.prefix_append _ _
      have hn := (hl.inside (hpre.trans hp) hr.parsed).2
      have hlen := hr.length
      rw [judge, hl.stable hpre hp (by rw [hr.parsed]; exact fun he => by cases he), hr.parsed]
      simp only [hr.accepted, List.length_append]
      rw [if_pos (by omega)]
    refine ⟨.failed (s := { y.state with ctx := _ }) hb hi.state.fits, hi.tls, ?_, fun _ h => absurd rfl (h _), fun _ he => by cases he⟩
    refine ⟨(fun he => by cases he), ?_, fun he => by cases he⟩
    rintro e ⟨⟩
    exact .inl (conclude_of_failed (hl.judge_failed hp hover'))
  | deliver hx hb ha _ => exact inv_deliver hl hreused hp hb ha hf htls (hh₁.extended hl.toLegible hp hoff hx) hk hin
  | next hx hb hw h0 =>
    have hh' := hh₁.extended hl.toLegible hp hoff hx
    apply inv_next hstage hreused hb hw hf htls hh' _ hin
    rw [Holds, if_neg h0] at hh'
    obtain ⟨n, code, hs, hr⟩ := hh'
    have hshort := hw.short h0
    rw [hr.judge (hl.toLegible.of_part hp) h0 hw.end_eq hw.offset_le, if_neg (by omega), if_pos hshort]

/-- One turn of the loop: the next record, if it is there. -/
theorem inv_drained (hi : Inv parse size r b tail got y) (hl : Proper parse r b) (htail : tail = [] ∨ judge parse r b ≠ .waiting)
    (hstage : y.state.stage = .draining) (hk : ¬ k.Willing → starved = true) :
    ∃ got, Inv parse size r b tail got { y with state := y.state.drained parse size r k, starved } := by
  obtain ⟨hreused, hh, hj⟩ := hi.settled.waiting (by simp [State.ending, hstage])
  have hw := hi.state.waiting (by rw [hstage]; trivial)
  have hfits := hi.state.fits
  obtain ⟨records, rest, hstream, hframed, hgot⟩ := hi.inStep (by simp [hstage]) (by simp [hstage])
  have hp : got <+: b := ⟨rest, hgot⟩
  have hlen := hh.length_le (hl.toLegible.of_part hp) hw
  have hwait : drain r k y.state.ctx y.state.socket = .wait →
      ∃ got, Inv parse size r b tail got { y with state := y.state.drained parse size r k, starved } := by
    intro hd
    have hsafe := drain_safe (k := k) hi.state.bounded hw hfits
    rw [hd] at hsafe
    cases hsafe with
    | wait hbuf hshort =>
      rw [State.drained, hd]
      exact ⟨got, inv_wait hi hstage hbuf hshort hk⟩
  rw [State.drained]
  cases hframed with
  | nil =>
    -- the response has not ended, so nothing comes behind its records
    rw [List.append_nil] at hgot
    rw [hgot] at hj
    obtain rfl := htail.resolve_right (not_not_intro hj)
    have hnil : y.state.socket.acc.pending = [] := (List.append_eq_nil_iff.mp hstream).1
    apply hwait
    have hbuf := hfits.length_pending
    rw [hnil] at hbuf
    rw [drain, if_pos (by rw [← hbuf]; decide)]
  | changeCipher hrec ht hle hmore =>
    rw [List.flatten_cons, List.append_assoc] at hstream
    rcases drain_front (r := r) (k := k) (c := y.state.ctx) hfits hrec hstream hle (.inl ht) with hd | ⟨hbuf, _, hd⟩
    · exact hwait hd
    · rw [if_pos ht] at hd
      rw [hd]
      obtain ⟨_, hstream'⟩ := front_record hfits hbuf hrec hstream
      exact ⟨got, inv_next hstage hreused hi.state.bounded hw (hfits.consume hbuf) hi.tls hh hj ⟨_, _, hstream', hmore, hgot⟩⟩
  | handshake ho hmore =>
    rw [List.flatten_cons, List.append_assoc] at hstream
    have h17 := ho.type
    rcases drain_front (r := r) (k := k) (c := y.state.ctx) hfits ho.whole hstream ho.declared_le (.inr ⟨h17, ho.long (by simp)⟩) with hd | ⟨hbuf, hdecl, hd⟩
    · exact hwait hd
    · rw [if_neg (by rw [h17]; decide)] at hd
      rw [hd]
      obtain ⟨hfront, hstream'⟩ := front_record hfits hbuf ho.whole hstream
      rcases openRecord_opens ho (.inl rfl) hfront hdecl hi.state.bounded hw hlen with ⟨st, hopen, hno⟩ | ⟨c₁, hk₁, hb₁, hw₁, hopen⟩
      · rw [hopen]
        exact ⟨got, .failed hi.state.bounded hi.state.fits, hi.tls, .of_starved rfl (hk hno), fun _ h => absurd rfl (h _), fun _ he => by cases he⟩
      · rw [if_pos rfl] at hopen
        rw [hopen]
        exact ⟨got, inv_next hstage hreused hb₁ hw₁ (hfits.consume hbuf) hi.tls (hh.kept hk₁) hj ⟨_, _, hstream', hmore, hgot⟩⟩
  | @content _ _ content _ _ rest' ho hmore =>
    rw [List.flatten_cons, List.append_assoc] at hstream
    rw [← List.append_assoc] at hgot
    have hp' : got ++ content <+: b := ⟨_, hgot⟩
    have h17 := ho.type
    rcases drain_front (r := r) (k := k) (c := y.state.ctx) hfits ho.whole hstream ho.declared_le (.inr ⟨h17, ho.long (by simp)⟩) with hd | ⟨hbuf, hdecl, hd⟩
    · exact hwait hd
    · rw [if_neg (by rw [h17]; decide)] at hd
      rw [hd]
      obtain ⟨hfront, hstream'⟩ := front_record hfits hbuf ho.whole hstream
      rcases openRecord_opens ho (.inr rfl) hfront hdecl hi.state.bounded hw hlen with ⟨st, hopen, hno⟩ | ⟨c₁, hk₁, hb₁, hw₁, hopen⟩
      · rw [hopen]
        exact ⟨got, .failed hi.state.bounded hi.state.fits, hi.tls, .of_starved rfl (hk hno), fun _ h => absurd rfl (h _), fun _ he => by cases he⟩
      · rw [if_neg (by decide)] at hopen
        exact ⟨got ++ content, inv_accounted hi hl hstage hp' hk₁ hopen hw₁.offset_le hw₁.end_eq (hfits.consume hbuf) hi.tls hk
          ⟨_, _, hstream', hmore, hgot⟩⟩

end Turns

theorem inv_init (hl : Legible parse b) (h : (system parse size r b tail).init y) : Inv parse size r b tail [] y := by
  obtain ⟨buffer, mdl, socket, k, records, hf, htls, hframed, hstream, hstate, hstarved⟩ := h
  rw [show y = ⟨y.state, y.reused, y.wire, y.starved⟩ from rfl, hstate, hstarved]
  refine ⟨start_inv hf, ?_, start_settled hl fun hno => by simp [hno], fun _ _ => ?_, ?_⟩
  · rw [start, issue_socket]
    exact htls
  · rw [start, issue_socket]
    exact ⟨records, b, hstream, hframed, rfl⟩
  · exact fun _ h => absurd h (issue_not_bulk _)

theorem inv_received {n : ℕ} {got : Bytes} (hi : Inv parse size r b tail got y) (hn : y.next parse size r (.received n k) = some y') :
    Inv parse size r b tail got y' := by
  obtain ⟨s, hs, rfl⟩ := Option.map_eq_some_iff.mp hn
  simp only [Http.next] at hs
  split at hs
  · rename_i post hstage
    have := hi.state.clear post hstage
    rw [hi.tls] at this
    cases this
  · rename_i room hstage
    split_ifs at hs with hc
    obtain rfl := Option.some.inj hs
    obtain ⟨rfl, _⟩ := hi.state.bulk room hstage
    have hw := hi.state.waiting (by rw [hstage]; trivial)
    obtain ⟨hreused, hh, hj⟩ := hi.settled.waiting (by simp [State.ending, hstage])
    obtain ⟨records, rest, hstream, hframed, hgot⟩ := hi.inStep (by simp [hstage]) (by simp [hstage])
    constructor
    · exact issue_inv (s := { y.state with socket := _ }) hi.state.bounded hw (hi.state.fits.arrive hc.2)
    · rw [issue_socket]
      exact hi.tls
    · show Settled parse r y.reused b got _ _
      rw [← hreused]
      apply issue_settled (s := { y.state with socket := { y.state.socket with acc := y.state.socket.acc.arrive (y.wire.take n) } })
      · exact hi.state.bounded
      · exact hw
      · exact fun hno => by simp [hno]
      · exact hh
      · exact hj
    · intro _ _
      rw [issue_socket]
      refine ⟨records, rest, ?_, hframed, hgot⟩
      show (y.state.socket.acc.arrive (y.wire.take n)).pending ++ y.wire.drop n = _
      rw [hi.state.fits.pending_arrive hc.2, List.append_assoc, List.take_append_drop]
      exact hstream
    · exact fun _ h => absurd h (issue_not_bulk _)
  · cases hs

theorem inv_closed {got : Bytes} (hl : Legible parse b) (hi : Inv parse size r b tail got y) (hn : y.next parse size r (.closed k) = some y') :
    Inv parse size r b tail got y' := by
  simp only [next] at hn
  split_ifs at hn with hwire
  obtain ⟨s, hs, rfl⟩ := Option.map_eq_some_iff.mp hn
  simp only [Http.next] at hs
  split at hs
  · rename_i post hstage
    have := hi.state.clear post hstage
    rw [hi.tls] at this
    cases this
  · rename_i room hstage
    obtain rfl := Option.some.inj hs
    have hw := hi.state.waiting (by rw [hstage]; trivial)
    obtain ⟨hreused, hh, hj⟩ := hi.settled.waiting (by simp [State.ending, hstage])
    obtain ⟨records, rest, hstream, hframed, hgot⟩ := hi.inStep (by simp [hstage]) (by simp [hstage])
    have hshort := hi.short room hstage
    rw [hwire, List.append_nil] at hstream
    rw [hstream] at hshort
    have hend := hframed.exhausted hshort hgot
    have hnot : ∀ stage, (y.state.lose .connectionDisconnected).stage = stage → stage = .connecting ∨ ∃ st, stage = .failed st := by
      rintro stage rfl
      unfold State.lose
      split_ifs
      · exact .inl rfl
      · exact .inr ⟨_, rfl⟩
    constructor
    · exact lose_inv hi.state.bounded hi.state.fits
    · rw [lose_socket]
      exact hi.tls
    · show Settled parse r y.reused b got _ _
      rw [← hreused, hend]
      rw [hend] at hh hj
      exact lose_settled hl hw hh hj
    · intro h1 h2
      rcases hnot _ rfl with h | ⟨st, h⟩
      · exact absurd h h1
      · exact absurd h (h2 st)
    · intro room' h
      rcases hnot _ h with h' | ⟨st, h'⟩ <;> cases h'
  · cases hs

theorem reachable_inv (hl : Proper parse r b) (htail : tail = [] ∨ judge parse r b ≠ .waiting) (h : (system parse size r b tail).Reachable y) :
    ∃ got, Inv parse size r b tail got y := by
  apply System.invariant (P := fun y => ∃ got, Inv parse size r b tail got y) _ _ h
  · exact fun _ hinit => ⟨[], inv_init hl.toLegible hinit⟩
  · rintro y y' _ ⟨got, hi⟩ ⟨act, hn⟩
    cases act with
    | received n k => exact ⟨got, inv_received hi hn⟩
    | closed k => exact ⟨got, inv_closed hl.toLegible hi hn⟩
    | drained k =>
      obtain ⟨s, hs, rfl⟩ := Option.map_eq_some_iff.mp hn
      simp only [Http.next] at hs
      split at hs
      · rename_i hstage
        obtain rfl := Option.some.inj hs
        exact inv_drained hi hl htail hstage fun hno => by simp [hno]
      · cases hs

end Secured

end BlorgFS.Http
