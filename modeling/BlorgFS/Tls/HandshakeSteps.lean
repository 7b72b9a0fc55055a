import BlorgFS.Tls.HandshakeMachine

/-! What the functions of the handshake can do, each said once: a message that is dispatched, the
messages that are taken out of a flight, a record that is received. -/

namespace BlorgFS.Tls.Handshake

open Lib Checked

variable {P : Primitives} {pin : Option Digest} {c c' : Context} {done : Bool}

/-! ### A message -/

/-- What dispatching a message can do: one case for each type, with what is required for it. -/
inductive Dispatched (P : Primitives) (pin : Option Digest) (c : Context) (body : List UInt8) : UInt8 → Context → Bool → Prop
  | encryptedExtensions (hfirst : c.sawEncryptedExtensions = false) (hnone : c.sawCertificate = false) :
    Dispatched P pin c body typeEncryptedExtensions { c with sawEncryptedExtensions := true } false
  | certificate (key : List UInt8) (hash : Digest) (hbefore : c.sawEncryptedExtensions = true) (hfirst : c.sawCertificate = false)
    (hkey : certificateKey P pin body = .ok key) (hhash : P.sha256 c.transcript = .ok hash) :
    Dispatched P pin c body typeCertificate { c with serverLongTermKey := key, transcriptHashThroughCert := hash.1, sawCertificate := true } false
  | certificateVerify (hash : Digest) (hbefore : c.sawCertificate = true) (hfirst : c.sawCertVerify = false)
    (hverified : verifyCertificate P c body = .ok ()) (hhash : P.sha256 c.transcript = .ok hash) :
    Dispatched P pin c body typeCertificateVerify { c with transcriptHashThroughCertVerify := hash.1, sawCertVerify := true } false
  | finished (mac : Digest) (hbefore : c.sawCertVerify = true) (hmac : finishedMac P c = .ok mac) (hequal : body = mac.1) :
    Dispatched P pin c body typeFinished c true

theorem dispatch_cases {msgType : UInt8} {body : List UInt8} (h : dispatch P pin c msgType body = .ok (c', done)) :
    Dispatched P pin c body msgType c' done := by
  unfold dispatch at h
  split_ifs at h with hextensions hsaw hcertificate hsaw hverify hsaw hfinished hsaw
  · cases h
    rw [Bool.or_eq_true, not_or, Bool.not_eq_true, Bool.not_eq_true] at hsaw
    subst hextensions
    exact .encryptedExtensions hsaw.1 hsaw.2
  · obtain ⟨key, hkey, h⟩ := bind_eq_ok.1 h
    obtain ⟨hash, hhash, h⟩ := bind_eq_ok.1 h
    cases h
    rw [Bool.or_eq_true, not_or, Bool.not_eq_true, Bool.not_eq_true, Bool.not_eq_false'] at hsaw
    subst hcertificate
    exact .certificate key hash hsaw.1 hsaw.2 hkey (ofExcept_eq_ok.1 hhash)
  · obtain ⟨_, hverified, h⟩ := bind_eq_ok.1 h
    obtain ⟨hash, hhash, h⟩ := bind_eq_ok.1 h
    cases h
    rw [Bool.or_eq_true, not_or, Bool.not_eq_true, Bool.not_eq_true, Bool.not_eq_false'] at hsaw
    subst hverify
    exact .certificateVerify hash hsaw.1 hsaw.2 hverified (ofExcept_eq_ok.1 hhash)
  · obtain ⟨mac, hmac, h⟩ := bind_eq_ok.1 h
    split_ifs at h with hequal
    cases h
    rw [Bool.or_eq_true, not_or, Bool.not_eq_true, Bool.not_eq_false', decide_eq_true_eq, not_not] at hsaw
    subst hfinished
    exact .finished mac hsaw.1 hmac ((constantTimeEqual_iff (mac.2.trans hsaw.2.symm)).1 hequal).symm

/-- What dispatching a message leaves alone: the stage, the keys and secrets, the sequence number
and what has been received. -/
def Context.core (c : Context) : Context :=
  { c with
    transcript := [], serverLongTermKey := [], transcriptHashThroughCert := [], transcriptHashThroughCertVerify := []
    sawEncryptedExtensions := false, sawCertificate := false, sawCertVerify := false, flight := [], dispatched := [] }

namespace Dispatched

variable {body : List UInt8} {msgType : UInt8}

theorem core (h : Dispatched P pin c body msgType c' done) : c'.core = c.core := by
  cases h <;> rfl

theorem flight (h : Dispatched P pin c body msgType c' done) : c'.flight = c.flight := by
  cases h <;> rfl

theorem transcript (h : Dispatched P pin c body msgType c' done) : c'.transcript = c.transcript := by
  cases h <;> rfl

theorem dispatched (h : Dispatched P pin c body msgType c' done) : c'.dispatched = c.dispatched := by
  cases h <;> rfl

/-- The Finished is what ends it, and nothing else. -/
theorem done_iff (h : Dispatched P pin c body msgType c' done) : done = true ↔ msgType = typeFinished := by
  cases h with
  | encryptedExtensions _ _ => exact ⟨nofun, fun heq => absurd heq (by decide)⟩
  | certificate _ _ _ _ _ _ => exact ⟨nofun, fun heq => absurd heq (by decide)⟩
  | certificateVerify _ _ _ _ _ => exact ⟨nofun, fun heq => absurd heq (by decide)⟩
  | finished _ _ _ _ => exact ⟨fun _ => rfl, fun _ => rfl⟩

end Dispatched

/-- A message that goes through is in the transcript when it is dispatched. -/
theorem processMessage_cases {message : List UInt8} (h : processMessage P pin c message = .ok (c', done)) :
    Dispatched P pin { c with transcript := c.transcript ++ message, dispatched := c.dispatched ++ [message] } (message.drop 4)
      (messageType message) c' done := by
  unfold processMessage at h
  split_ifs at h
  exact dispatch_cases (mapError_eq_ok.1 h)

/-! ### A flight -/

/-- What taking messages out of a flight can do: those taken are whole and were at its front, the
Finished is the last of them, and if it is not there yet no message is left in full. -/
structure Drained (c c' : Context) (done : Bool) (taken : List (List UInt8)) : Prop where
  core : c'.core = c.core
  dispatched : c'.dispatched = c.dispatched ++ taken
  flight : c.flight = taken.flatten ++ c'.flight
  whole : ∀ m ∈ taken, IsMessage m
  going : done = false → messageFraming.cut c'.flight = none ∧ ∀ m ∈ taken, messageType m ≠ typeFinished
  finished : done = true → ∃ before last, taken = before ++ [last] ∧ messageType last = typeFinished ∧ ∀ m ∈ before, messageType m ≠ typeFinished

theorem processFlightMessages_drained {turns : ℕ} (h : processFlightMessages P pin turns c = .ok (c', done)) : ∃ taken, Drained c c' done taken := by
  induction turns generalizing c with
  | zero => exact nomatch h
  | succ turns ih =>
    unfold processFlightMessages at h
    cases hcut : messageFraming.cut c.flight with
    | none =>
      rw [hcut] at h
      obtain ⟨rfl, rfl⟩ := Prod.mk.inj (Checked.ok.inj h)
      exact ⟨[], rfl, (List.append_nil _).symm, rfl, nofun, fun _ => ⟨hcut, nofun⟩, nofun⟩
    | some p =>
      obtain ⟨message, rest⟩ := p
      obtain ⟨hwhole, hflight⟩ := Framing.whole_of_cut hcut
      rw [hcut] at h
      obtain ⟨⟨c₁, done₁⟩, hmessage, h⟩ := bind_eq_ok.1 h
      have hdispatched := processMessage_cases hmessage
      have hcore : c₁.core = c.core := hdispatched.core
      have hlog : c₁.dispatched = c.dispatched ++ [message] := hdispatched.dispatched
      have hrest : c₁.flight = rest := hdispatched.flight
      dsimp only at h
      split_ifs at h with hdone
      · cases h
        refine ⟨[message], hcore, hlog, ?_, fun m hm => List.mem_singleton.1 hm ▸ hwhole, nofun, fun _ => ?_⟩
        · rw [hrest, hflight, List.flatten_singleton]
        · exact ⟨[], message, rfl, hdispatched.done_iff.1 hdone, nofun⟩
      · have hother : messageType message ≠ typeFinished := fun heq => hdone (hdispatched.done_iff.2 heq)
        obtain ⟨taken, htaken⟩ := ih h
        refine ⟨message :: taken, htaken.core.trans hcore, ?_, ?_, ?_, fun hgoing => ?_, fun hfinished => ?_⟩
        · rw [htaken.dispatched, hlog, List.append_assoc, List.singleton_append]
        · rw [hflight, ← hrest, htaken.flight, List.flatten_cons, List.append_assoc]
        · exact List.forall_mem_cons.2 ⟨hwhole, htaken.whole⟩
        · obtain ⟨hnone, hothers⟩ := htaken.going hgoing
          exact ⟨hnone, List.forall_mem_cons.2 ⟨hother, hothers⟩⟩
        · obtain ⟨before, last, rfl, hlast, hbefore⟩ := htaken.finished hfinished
          exact ⟨message :: before, last, rfl, hlast, List.forall_mem_cons.2 ⟨hother, hbefore⟩⟩

/-- What each message dispatched keeps, and a shorter flight does, the messages of a flight keep. -/
theorem processFlightMessages_keeps {J : Context → Bool → Prop} (hflight : ∀ c rest, J c false → J { c with flight := rest } false)
    (hmessage : ∀ c c' message done, J c false →
      Dispatched P pin { c with transcript := c.transcript ++ message, dispatched := c.dispatched ++ [message] } (message.drop 4)
        (messageType message) c' done → J c' done)
    {turns : ℕ} (h : processFlightMessages P pin turns c = .ok (c', done)) (hJ : J c false) : J c' done := by
  induction turns generalizing c with
  | zero => exact nomatch h
  | succ turns ih =>
    unfold processFlightMessages at h
    cases hcut : messageFraming.cut c.flight with
    | none =>
      rw [hcut] at h
      cases h
      exact hJ
    | some p =>
      obtain ⟨message, rest⟩ := p
      rw [hcut] at h
      obtain ⟨⟨c₁, done₁⟩, hprocessed, h⟩ := bind_eq_ok.1 h
      have hnext := hmessage _ _ _ _ (hflight c rest hJ) (processMessage_cases hprocessed)
      dsimp only at h
      split_ifs at h with hdone
      · cases h
        exact hdone ▸ hnext
      · rw [Bool.eq_false_iff.2 hdone] at hnext
        exact ih h hnext

/-! ### The ServerHello -/

/-- A context without the keys that the ServerHello brings. -/
def Context.unkeyed (c : Context) : Context :=
  { c with handshakeSecret := [], clientHsTraffic := [], serverHsTraffic := [], clientHsKey := [], clientHsIv := [], serverHsKey := [], serverHsIv := [] }

theorem deriveHandshakeKeys_unkeyed (h : deriveHandshakeKeys P c = .ok c') : c'.unkeyed = c.unkeyed := by
  obtain ⟨_, _, h⟩ := bind_eq_ok.1 h
  obtain ⟨_, _, h⟩ := bind_eq_ok.1 h
  obtain ⟨_, _, h⟩ := bind_eq_ok.1 h
  obtain ⟨_, _, h⟩ := bind_eq_ok.1 h
  obtain ⟨_, _, h⟩ := bind_eq_ok.1 h
  obtain ⟨_, _, h⟩ := bind_eq_ok.1 h
  obtain ⟨_, _, h⟩ := bind_eq_ok.1 h
  obtain ⟨_, _, h⟩ := bind_eq_ok.1 h
  obtain ⟨_, _, h⟩ := bind_eq_ok.1 h
  obtain ⟨_, _, h⟩ := bind_eq_ok.1 h
  obtain ⟨_, _, h⟩ := bind_eq_ok.1 h
  obtain ⟨_, _, h⟩ := bind_eq_ok.1 h
  cases h
  rfl

/-- What a ServerHello that goes through does: it is all of its record, and the keys come from the
transcript with it and the point it offers. -/
structure Greeted (P : Primitives) (c : Context) (payload : List UInt8) (c' : Context) : Prop where
  message : IsMessage payload
  type : messageType payload = 0x02
  derived : ∃ random key derived, parseServerHello (payload.drop 4) = .ok (random, key) ∧
    deriveHandshakeKeys P { c with transcript := c.transcript ++ payload, dispatched := c.dispatched ++ [payload], serverPublic := key } = .ok derived ∧
    c' = { derived with stage := .waitingForFlightRecord }

theorem onReceiveServerHello_cases {payload : List UInt8} (h : onReceiveServerHello P c payload = .ok c') : Greeted P c payload c' := by
  unfold onReceiveServerHello at h
  split_ifs at h with hshort htype hlength
  obtain ⟨⟨random, key⟩, hparse, h⟩ := bind_eq_ok.1 (mapError_eq_ok.1 h)
  obtain ⟨derived, hderived, h⟩ := bind_eq_ok.1 h
  cases h
  exact ⟨isMessage_iff.2 ⟨Nat.le_of_not_lt hshort, (not_not.1 hlength).symm⟩, not_not.1 htype, random, key, derived, mapError_eq_ok.1 hparse,
    hderived, rfl⟩

/-- What the ServerHello does to the context, its keys apart. -/
theorem Greeted.unkeyed {payload : List UInt8} (h : Greeted P c payload c') :
    ∃ key, c'.unkeyed =
      { c with
        transcript := c.transcript ++ payload, dispatched := c.dispatched ++ [payload], serverPublic := key
        stage := .waitingForFlightRecord : Context }.unkeyed := by
  obtain ⟨_, key, derived, _, hderived, rfl⟩ := h.derived
  refine ⟨key, ?_⟩
  have hunkeyed := deriveHandshakeKeys_unkeyed hderived
  exact congrArg (fun c : Context => { c with stage := .waitingForFlightRecord }) hunkeyed

/-! ### A record -/

/-- What receiving a record can do: the ServerHello, nothing for a change_cipher_spec, or a content
behind the flight and the messages that are then there. -/
inductive Received (P : Primitives) (pin : Option Digest) (c : Context) (record : List UInt8) : Context → Bool → Prop
  | serverHello (c' : Context) (hstage : c.stage = .waitingForServerHello) (htype : record.getD 0 0 = 0x16) (hgreeted : Greeted P c (record.drop 5) c') :
    Received P pin c record c' false
  | changeCipherSpec (hstage : c.stage = .waitingForFlightRecord) (htype : record.getD 0 0 = 0x14) : Received P pin c record c false
  | content (content : List UInt8) (c' : Context) (done : Bool) (hstage : c.stage = .waitingForFlightRecord) (htype : record.getD 0 0 = 0x17)
    (hopen : openRecord P c (record.take 5) (record.drop 5) = .ok content)
    (hprocess : ∃ turns, processFlightMessages P pin turns
      { c with serverSeq := c.serverSeq + 1, flight := c.flight ++ content, contents := c.contents ++ [content] } = .ok (c', done)) :
    Received P pin c record c' done

theorem onReceiveRecordPayload_cases {record : List UInt8} (h : onReceiveRecordPayload P pin c record = .ok (c', done)) : Received P pin c record c' done := by
  unfold onReceiveRecordPayload at h
  dsimp only at h
  split_ifs at h with hstage htype halert hspec htype
  · obtain ⟨c₁, hhello, h⟩ := bind_eq_ok.1 h
    cases h
    exact .serverHello _ hstage (not_not.1 htype) (onReceiveServerHello_cases hhello)
  · have hflight : c.stage = .waitingForFlightRecord := by
      cases hc : c.stage with
      | waitingForServerHello => exact absurd hc hstage
      | waitingForFlightRecord => rfl
    obtain ⟨rfl, rfl⟩ := Prod.mk.inj (Checked.ok.inj h)
    exact .changeCipherSpec hflight hspec
  · have hflight : c.stage = .waitingForFlightRecord := by
      cases hc : c.stage with
      | waitingForServerHello => exact absurd hc hstage
      | waitingForFlightRecord => rfl
    obtain ⟨content, hopen, h⟩ := bind_eq_ok.1 h
    exact .content content c' done hflight (not_not.1 htype) (mapError_eq_ok.1 hopen) ⟨_, h⟩

end BlorgFS.Tls.Handshake
