import BlorgFS.Tls.HandshakeRuns

/-! What a completed handshake has shown of its peer. Five messages came, each once and in order;
the leaf's key is the pinned one, and it signed the transcript up to the certificate; the Finished
is the MAC of the transcript up to the signature; and the application's keys are derived from the
transcript that ends with it. -/

namespace BlorgFS.Tls.Handshake

open Lib Checked

/-! ### What is to be shown -/

/-- The leaf's SubjectPublicKeyInfo in the body of a Certificate message. -/
def leafKey (body : List UInt8) : Checked Status (List UInt8) := do
  let (start, len) ← (parseCertificateMessage body).mapError invalid
  let leafCert := (body.drop start).take len
  let (start, len) ← (Der.extractSpkiFromCertificate leafCert).mapError invalid
  .ok ((leafCert.drop start).take len)

/-- The pin that is configured is the hash of the leaf's key. -/
def Pinned (P : Primitives) (pin : Option Digest) (certificate key : List UInt8) : Prop :=
  ∃ spki value, leafKey (certificate.drop 4) = .ok spki ∧ pin = some value ∧ P.sha256 spki = .ok value ∧ decodeP256SubjectPublicKeyInfo spki = .ok key

/-- A CertificateVerify message has a key's signature over a transcript. -/
def Signed (P : Primitives) (key transcript certificateVerify : List UInt8) : Prop :=
  ∃ hash signature digest, P.sha256 transcript = .ok hash ∧ parseCertificateVerifyMessage (certificateVerify.drop 4) = .ok signature ∧
    P.sha256 (buildServerCertVerifyContent hash.1) = .ok digest ∧ P.ecdsaVerify key digest.1 signature = .ok ()

/-- A Finished message has the MAC of a transcript. -/
def Proved (P : Primitives) (serverHsTraffic transcript finished : List UInt8) : Prop :=
  ∃ hash finishedKey mac, P.sha256 transcript = .ok hash ∧ expandLabel P serverHsTraffic .finished [] hashLen = .ok finishedKey ∧
    P.hmacSha256 finishedKey hash.1 = .ok mac ∧ finished.drop 4 = mac.1

/-- The messages of a handshake behind its ClientHello. -/
structure Exchange where
  hello : List UInt8
  extensions : List UInt8
  certificate : List UInt8
  certificateVerify : List UInt8
  finished : List UInt8

def Exchange.messages (x : Exchange) : List (List UInt8) := [x.hello, x.extensions, x.certificate, x.certificateVerify, x.finished]

/-- The transcript up to some of the messages. -/
def Exchange.through (x : Exchange) (clientHello : List UInt8) (n : ℕ) : List UInt8 := clientHello ++ (x.messages.take n).flatten

/-- The peer of a handshake is the one that is pinned, and the keys are those of the handshake. -/
structure Exchange.Authentic (P : Primitives) (pin : Option Digest) (clientPrivate clientPublic clientHello : List UInt8) (x : Exchange) (keys : Keys) : Prop where
  types : x.messages.map messageType = [0x02, typeEncryptedExtensions, typeCertificate, typeCertificateVerify, typeFinished]
  shown : ∃ greeted key mac, Greeted P (.fresh clientPrivate clientPublic clientHello) x.hello greeted ∧ Pinned P pin x.certificate key ∧
    Signed P key (x.through clientHello 3) x.certificateVerify ∧ Proved P greeted.serverHsTraffic (x.through clientHello 4) x.finished ∧
    deriveApplicationKeys P { greeted with transcript := x.through clientHello 5 } = .ok (keys, mac)

section Functions

variable {P : Primitives} {pin : Option Digest} {c c' : Context}

theorem checkPin_eq_true {spki : List UInt8} (h : checkPin P pin spki = true) : ∃ value, pin = some value ∧ P.sha256 spki = .ok value := by
  unfold checkPin at h
  cases hcomputed : P.sha256 spki with
  | error e => rw [hcomputed] at h; exact nomatch h
  | ok computed =>
    rw [hcomputed] at h
    obtain ⟨value, hpin, hequal⟩ := (Option.any_eq_true _ _).1 h
    have hsame := (constantTimeEqual_iff (computed.2.trans value.2.symm)).1 hequal
    exact ⟨value, hpin, congrArg Except.ok (Subtype.ext hsame)⟩

theorem certificateKey_pinned {certificate key : List UInt8} (h : certificateKey P pin (certificate.drop 4) = .ok key) : Pinned P pin certificate key := by
  obtain ⟨⟨start, len⟩, hmessage, h⟩ := bind_eq_ok.1 h
  obtain ⟨⟨start', len'⟩, hspki, h⟩ := bind_eq_ok.1 h
  dsimp only at h
  split_ifs at h with hpin
  obtain ⟨value, hvalue, hhash⟩ := checkPin_eq_true hpin
  refine ⟨_, value, ?_, hvalue, hhash, ofExcept_eq_ok.1 (mapError_eq_ok.1 h)⟩
  exact bind_eq_ok.2 ⟨(start, len), hmessage, bind_eq_ok.2 ⟨(start', len'), hspki, rfl⟩⟩

theorem verifyCertificate_signed {transcript certificateVerify : List UInt8} {hash : Digest} (hhash : P.sha256 transcript = .ok hash)
    (hthrough : c.transcriptHashThroughCert = hash.1) (h : verifyCertificate P c (certificateVerify.drop 4) = .ok ()) :
    Signed P c.serverLongTermKey transcript certificateVerify := by
  obtain ⟨signature, hsignature, h⟩ := bind_eq_ok.1 h
  obtain ⟨digest, hdigest, h⟩ := bind_eq_ok.1 h
  rw [hthrough] at hdigest
  exact ⟨hash, signature, digest, hhash, mapError_eq_ok.1 hsignature, ofExcept_eq_ok.1 hdigest, ofExcept_eq_ok.1 h⟩

theorem finishedMac_proved {transcript finished : List UInt8} {hash mac : Digest} (hhash : P.sha256 transcript = .ok hash)
    (hthrough : c.transcriptHashThroughCertVerify = hash.1) (h : finishedMac P c = .ok mac) (hequal : finished.drop 4 = mac.1) :
    Proved P c.serverHsTraffic transcript finished := by
  obtain ⟨finishedKey, hkey, h⟩ := bind_eq_ok.1 h
  rw [hthrough] at h
  exact ⟨hash, finishedKey, mac, hhash, hkey, ofExcept_eq_ok.1 h, hequal⟩

theorem deriveApplicationKeys_congr (hsecret : c.handshakeSecret = c'.handshakeSecret) (htraffic : c.clientHsTraffic = c'.clientHsTraffic)
    (htranscript : c.transcript = c'.transcript) : deriveApplicationKeys P c = deriveApplicationKeys P c' := by
  unfold deriveApplicationKeys
  rw [hsecret, htraffic, htranscript]

end Functions

/-! ### Message by message -/

/-- What a context says of the messages behind the ServerHello. -/
structure Facts where
  sawEncryptedExtensions : Bool
  sawCertificate : Bool
  sawCertVerify : Bool
  serverLongTermKey : List UInt8
  transcriptHashThroughCert : List UInt8
  transcriptHashThroughCertVerify : List UInt8

def Context.facts (c : Context) : Facts :=
  ⟨c.sawEncryptedExtensions, c.sawCertificate, c.sawCertVerify, c.serverLongTermKey, c.transcriptHashThroughCert, c.transcriptHashThroughCertVerify⟩

/-- How far the messages behind the ServerHello have come, and what they have shown: one case for
each of them. `front` is the transcript up to the ServerHello. -/
inductive Shown (P : Primitives) (pin : Option Digest) (front serverHsTraffic : List UInt8) (f : Facts) : List (List UInt8) → Bool → Prop
  | nothing (hextensions : f.sawEncryptedExtensions = false) (hcertificate : f.sawCertificate = false) (hverify : f.sawCertVerify = false) :
    Shown P pin front serverHsTraffic f [] false
  | extensions (e : List UInt8) (he : messageType e = typeEncryptedExtensions) (hextensions : f.sawEncryptedExtensions = true)
    (hcertificate : f.sawCertificate = false) (hverify : f.sawCertVerify = false) : Shown P pin front serverHsTraffic f [e] false
  | certificate (e m : List UInt8) (hash : Digest) (he : messageType e = typeEncryptedExtensions) (hm : messageType m = typeCertificate)
    (hextensions : f.sawEncryptedExtensions = true) (hcertificate : f.sawCertificate = true) (hverify : f.sawCertVerify = false)
    (hpinned : Pinned P pin m f.serverLongTermKey) (hhash : P.sha256 (front ++ [e, m].flatten) = .ok hash)
    (hthrough : f.transcriptHashThroughCert = hash.1) : Shown P pin front serverHsTraffic f [e, m] false
  | certificateVerify (e m v : List UInt8) (hash : Digest) (he : messageType e = typeEncryptedExtensions) (hm : messageType m = typeCertificate)
    (hv : messageType v = typeCertificateVerify) (hextensions : f.sawEncryptedExtensions = true) (hcertificate : f.sawCertificate = true)
    (hverify : f.sawCertVerify = true) (hpinned : Pinned P pin m f.serverLongTermKey) (hsigned : Signed P f.serverLongTermKey (front ++ [e, m].flatten) v)
    (hhash : P.sha256 (front ++ [e, m, v].flatten) = .ok hash) (hthrough : f.transcriptHashThroughCertVerify = hash.1) :
    Shown P pin front serverHsTraffic f [e, m, v] false
  | finished (e m v n : List UInt8) (he : messageType e = typeEncryptedExtensions) (hm : messageType m = typeCertificate)
    (hv : messageType v = typeCertificateVerify) (hn : messageType n = typeFinished) (hpinned : Pinned P pin m f.serverLongTermKey)
    (hsigned : Signed P f.serverLongTermKey (front ++ [e, m].flatten) v) (hproved : Proved P serverHsTraffic (front ++ [e, m, v].flatten) n) :
    Shown P pin front serverHsTraffic f [e, m, v, n] true

section Messages

variable {P : Primitives} {pin : Option Digest} {front serverHsTraffic : List UInt8} {c c' : Context} {ms : List (List UInt8)} {message : List UInt8} {done : Bool}

/-- A message that is dispatched is the next one. -/
theorem Shown.dispatched (h : Shown P pin front serverHsTraffic c.facts ms false) (htraffic : c.serverHsTraffic = serverHsTraffic)
    (htranscript : c.transcript = front ++ ms.flatten)
    (hdispatched : Dispatched P pin { c with transcript := c.transcript ++ message, dispatched := c.dispatched ++ [message] } (message.drop 4)
      (messageType message) c' done) : Shown P pin front serverHsTraffic c'.facts (ms ++ [message]) done := by
  have hthrough : c.transcript ++ message = front ++ (ms ++ [message]).flatten := by
    rw [htranscript, List.flatten_append, List.flatten_singleton, List.append_assoc]
  generalize htype : messageType message = type at hdispatched
  cases hdispatched with
  | encryptedExtensions hfirst hnone =>
    cases h with
    | nothing hextensions hcertificate hverify => exact .extensions message htype rfl hcertificate hverify
    | extensions _ _ hextensions _ _ => exact absurd (hfirst.symm.trans hextensions) Bool.false_ne_true
    | certificate _ _ _ _ _ hextensions _ _ _ _ _ => exact absurd (hfirst.symm.trans hextensions) Bool.false_ne_true
    | certificateVerify _ _ _ _ _ _ _ hextensions _ _ _ _ _ _ => exact absurd (hfirst.symm.trans hextensions) Bool.false_ne_true
  | certificate key hash hbefore hfirst hkey hhash =>
    cases h with
    | nothing hextensions _ _ => exact absurd (hextensions.symm.trans hbefore) Bool.false_ne_true
    | extensions e he hextensions _ hverify =>
      exact .certificate e message hash he htype hextensions rfl hverify (certificateKey_pinned hkey) (hthrough ▸ hhash) rfl
    | certificate _ _ _ _ _ _ hcertificate _ _ _ _ => exact absurd (hfirst.symm.trans hcertificate) Bool.false_ne_true
    | certificateVerify _ _ _ _ _ _ _ _ hcertificate _ _ _ _ _ => exact absurd (hfirst.symm.trans hcertificate) Bool.false_ne_true
  | certificateVerify hash hbefore hfirst hverified hhash =>
    cases h with
    | nothing _ hcertificate _ => exact absurd (hcertificate.symm.trans hbefore) Bool.false_ne_true
    | extensions _ _ _ hcertificate _ => exact absurd (hcertificate.symm.trans hbefore) Bool.false_ne_true
    | certificate e m hash' he hm hextensions hcertificate _ hpinned hhash' hthrough' =>
      exact .certificateVerify e m message hash he hm htype hextensions hcertificate rfl hpinned
        (verifyCertificate_signed hhash' hthrough' hverified) (hthrough ▸ hhash) rfl
    | certificateVerify _ _ _ _ _ _ _ _ _ hverify _ _ _ _ => exact absurd (hfirst.symm.trans hverify) Bool.false_ne_true
  | finished mac hbefore hmac hequal =>
    cases h with
    | nothing _ _ hverify => exact absurd (hverify.symm.trans hbefore) Bool.false_ne_true
    | extensions _ _ _ _ hverify => exact absurd (hverify.symm.trans hbefore) Bool.false_ne_true
    | certificate _ _ _ _ _ _ _ hverify _ _ _ => exact absurd (hverify.symm.trans hbefore) Bool.false_ne_true
    | certificateVerify e m v hash he hm hv _ _ _ hpinned hsigned hhash hthrough' =>
      exact .finished e m v message he hm hv htype hpinned hsigned (htraffic ▸ finishedMac_proved hhash hthrough' hmac hequal)

end Messages

/-! ### Record by record -/

/-- A context past its ServerHello, next to the one the ServerHello left: the same secrets, and a
transcript of the messages dispatched. -/
structure Trail (P : Primitives) (pin : Option Digest) (clientHello hello : List UInt8) (greeted c : Context) (done : Bool) : Prop where
  stage : c.stage = .waitingForFlightRecord
  handshakeSecret : c.handshakeSecret = greeted.handshakeSecret
  clientHsTraffic : c.clientHsTraffic = greeted.clientHsTraffic
  serverHsTraffic : c.serverHsTraffic = greeted.serverHsTraffic
  transcript : c.transcript = clientHello ++ c.dispatched.flatten
  shown : ∃ ms, c.dispatched = hello :: ms ∧ Shown P pin (clientHello ++ hello) greeted.serverHsTraffic c.facts ms done

/-- What is known between two records. -/
inductive Known (P : Primitives) (pin : Option Digest) (clientPrivate clientPublic clientHello : List UInt8) : Context → Bool → Prop
  | fresh : Known P pin clientPrivate clientPublic clientHello (.fresh clientPrivate clientPublic clientHello) false
  | greeted {c : Context} {done : Bool} (hello : List UInt8) (g : Context) (hgreeted : Greeted P (.fresh clientPrivate clientPublic clientHello) hello g)
    (htrail : Trail P pin clientHello hello g c done) : Known P pin clientPrivate clientPublic clientHello c done

section Records

variable {P : Primitives} {pin : Option Digest} {clientPrivate clientPublic clientHello hello : List UInt8} {g c c' : Context} {done : Bool}

theorem Trail.dispatched {message : List UInt8} (h : Trail P pin clientHello hello g c false)
    (hdispatched : Dispatched P pin { c with transcript := c.transcript ++ message, dispatched := c.dispatched ++ [message] } (message.drop 4)
      (messageType message) c' done) : Trail P pin clientHello hello g c' done := by
  obtain ⟨ms, hms, hshown⟩ := h.shown
  have hcore := hdispatched.core
  have htranscript : c.transcript = (clientHello ++ hello) ++ ms.flatten := by rw [h.transcript, hms, List.flatten_cons, List.append_assoc]
  have hlog : c'.dispatched = c.dispatched ++ [message] := hdispatched.dispatched
  refine ⟨(congrArg Context.stage hcore).trans h.stage, ?_, ?_, ?_, ?_, ms ++ [message], ?_, hshown.dispatched h.serverHsTraffic htranscript hdispatched⟩
  · exact (congrArg Context.handshakeSecret hcore).trans h.handshakeSecret
  · exact (congrArg Context.clientHsTraffic hcore).trans h.clientHsTraffic
  · exact (congrArg Context.serverHsTraffic hcore).trans h.serverHsTraffic
  · have hgrown : c'.transcript = c.transcript ++ message := hdispatched.transcript
    rw [hgrown, hlog, h.transcript, List.flatten_append, List.flatten_singleton, List.append_assoc]
  · rw [hlog, hms, List.cons_append]

/-- The flight has nothing to do with it, and neither have what it came in and its number. -/
theorem Trail.received (h : Trail P pin clientHello hello g c done) (flight : List UInt8) (contents : List (List UInt8)) (serverSeq : ℕ) :
    Trail P pin clientHello hello g { c with flight, contents, serverSeq } done :=
  ⟨h.stage, h.handshakeSecret, h.clientHsTraffic, h.serverHsTraffic, h.transcript, h.shown⟩

theorem Greeted.trail (h : Greeted P (.fresh clientPrivate clientPublic clientHello) hello g) : Trail P pin clientHello hello g g false := by
  obtain ⟨key, hunkeyed⟩ := h.unkeyed
  have hdispatched : g.dispatched = [hello] := (congrArg Context.dispatched hunkeyed :)
  have htranscript : g.transcript = clientHello ++ hello := (congrArg Context.transcript hunkeyed :)
  refine ⟨congrArg Context.stage hunkeyed, rfl, rfl, rfl, ?_, [], hdispatched, ?_⟩
  · rw [htranscript, hdispatched, List.flatten_singleton]
  · exact .nothing (congrArg Context.sawEncryptedExtensions hunkeyed) (congrArg Context.sawCertificate hunkeyed) (congrArg Context.sawCertVerify hunkeyed)

theorem Known.received {record : List UInt8} (h : Known P pin clientPrivate clientPublic clientHello c false)
    (hreceived : Received P pin c record c' done) : Known P pin clientPrivate clientPublic clientHello c' done := by
  cases hreceived with
  | serverHello _ hstage _ hgreeted =>
    cases h with
    | fresh => exact .greeted _ _ hgreeted hgreeted.trail
    | greeted hello g _ htrail => exact absurd (htrail.stage.symm.trans hstage) nofun
  | changeCipherSpec _ _ => exact h
  | content content _ _ hstage _ _ hprocess =>
    cases h with
    | fresh => exact nomatch hstage
    | greeted hello g hgreeted htrail =>
      obtain ⟨turns, hprocess⟩ := hprocess
      refine .greeted hello g hgreeted (processFlightMessages_keeps (J := Trail P pin clientHello hello g) ?_ ?_ hprocess (htrail.received _ _ _))
      · exact fun c rest h => h.received rest c.contents c.serverSeq
      · exact fun _ _ _ _ h hdispatched => h.dispatched hdispatched

theorem Known.carried : Carried P pin fun c _ done => Known P pin clientPrivate clientPublic clientHello c done := ⟨fun h hreceived => h.received hreceived⟩

/-- What the Finished leaves behind it. -/
theorem Known.authentic {keys : Keys} {mac : Digest} (h : Known P pin clientPrivate clientPublic clientHello c true)
    (hkeys : deriveApplicationKeys P c = .ok (keys, mac)) :
    ∃ x : Exchange, c.dispatched = x.messages ∧ x.Authentic P pin clientPrivate clientPublic clientHello keys := by
  cases h with
  | greeted hello g hgreeted htrail =>
    obtain ⟨ms, hms, hshown⟩ := htrail.shown
    cases hshown with
    | finished e m v n he hm hv hn hpinned hsigned hproved =>
      have hfront : ∀ l, clientHello ++ hello ++ List.flatten l = clientHello ++ (hello :: l).flatten := fun l => by
        rw [List.flatten_cons, List.append_assoc]
      rw [hfront] at hsigned hproved
      refine ⟨⟨hello, e, m, v, n⟩, hms, ?_, g, c.serverLongTermKey, mac, hgreeted, hpinned, hsigned, hproved, ?_⟩
      · show [messageType hello, _, _, _, _] = _
        rw [hgreeted.type, he, hm, hv, hn]
      · refine Eq.trans (deriveApplicationKeys_congr ?_ ?_ ?_) hkeys
        · exact htrail.handshakeSecret.symm
        · exact htrail.clientHsTraffic.symm
        · rw [htrail.transcript, hms]
          rfl

end Records

/-- However the peer answers and however its bytes come, a completed handshake is one with the pinned
peer: its messages came once each and in order and have shown what they are to show. -/
theorem handshake_authentic (P : Primitives) (pin : Option Digest) (size : SystemSize) (clientPrivate clientPublic clientHello : List UInt8)
    (buffer : ℕ → UInt8) (acts : List Act) (s : State)
    (hrun : run (next P pin size) (.start clientPrivate clientPublic clientHello buffer) acts = some s) (hcomplete : s.progress = .complete) :
    ∃ x keys, s.ctx.dispatched = Exchange.messages x ∧ s.keys = some keys ∧ x.Authentic P pin clientPrivate clientPublic clientHello keys := by
  have hcarried : Carried P pin fun c _ done => Known P pin clientPrivate clientPublic clientHello c done := Known.carried
  have hinv := Inv.run hcarried (Inv.start .fresh buffer) hrun
  have hfound := congrArg Progress.found hcomplete
  obtain ⟨keys, mac, hkeys, hderived⟩ := hinv.keyed hfound
  obtain ⟨x, hdispatched, hauthentic⟩ := (hinv.holds true hfound).authentic hderived
  exact ⟨x, keys, hdispatched, hkeys, hauthentic⟩

theorem handshake_authentic_exact : ∃ s, Sample.handshake Sample.exact = some s ∧
    ∃ x keys, s.ctx.dispatched = Exchange.messages x ∧ s.keys = some keys ∧
      x.Authentic Sample.platform (some Sample.pin) Sample.clientPrivate Sample.clientPublic Sample.clientHello keys := by
  obtain ⟨s, hrun, hend⟩ := Option.map_eq_some_iff.1 Sample.exact_completes
  exact ⟨s, hrun, handshake_authentic _ _ _ _ _ _ _ _ s hrun (Prod.mk.inj hend).1⟩

end BlorgFS.Tls.Handshake
