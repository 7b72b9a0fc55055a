import BlorgFS.Tls.HandshakeRuns

/-! No byte of a peer makes the handshake fault. Every parser a record reaches stays inside what it is
given, every derivation inside its buffer, and every loop ends in the turns it is given, whatever the
context is and whatever the platform's functions answer. -/

namespace BlorgFS.Lib.Checked

variable {ε α : Type}

/-- An answer that takes no reading is no fault. -/
theorem ofExcept_meets (x : Except ε α) : Meets (ofExcept x) fun _ => True := by
  cases x <;> trivial

end BlorgFS.Lib.Checked

namespace BlorgFS.Tls.Handshake

open Lib Checked

variable {P : Primitives} {pin : Option Digest} {size : SystemSize} {c : Context} {k : Choice} {s s' : State}

/-! ### The key schedule -/

theorem hkdfExtract_meets {hmac : Hmac} {salt ikm : List UInt8} : (hkdfExtract hmac salt ikm).Meets fun _ => True :=
  (ofExcept_meets _).bind fun _ _ => trivial

theorem expandLabel_meets {secret context : List UInt8} {label : Label} {length : ℕ} : (expandLabel P secret label context length).Meets fun _ => True :=
  hkdfExpandLabel_meets.mono fun _ _ => trivial

theorem deriveHandshakeKeys_meets : (deriveHandshakeKeys P c).Meets fun _ => True := by
  unfold deriveHandshakeKeys
  refine (ofExcept_meets _).bind fun _ _ => (ofExcept_meets _).bind fun _ _ => (ofExcept_meets _).bind fun _ _ => ?_
  refine hkdfExtract_meets.bind fun _ _ => expandLabel_meets.bind fun _ _ => hkdfExtract_meets.bind fun _ _ => ?_
  refine expandLabel_meets.bind fun _ _ => expandLabel_meets.bind fun _ _ => ?_
  refine expandLabel_meets.bind fun _ _ => expandLabel_meets.bind fun _ _ => ?_
  exact expandLabel_meets.bind fun _ _ => expandLabel_meets.bind fun _ _ => trivial

theorem deriveApplicationKeys_meets : (deriveApplicationKeys P c).Meets fun _ => True := by
  unfold deriveApplicationKeys
  refine (ofExcept_meets _).bind fun _ _ => expandLabel_meets.bind fun _ _ => hkdfExtract_meets.bind fun _ _ => ?_
  refine (ofExcept_meets _).bind fun _ _ => expandLabel_meets.bind fun _ _ => expandLabel_meets.bind fun _ _ => ?_
  refine expandLabel_meets.bind fun _ _ => expandLabel_meets.bind fun _ _ => ?_
  refine expandLabel_meets.bind fun _ _ => expandLabel_meets.bind fun _ _ => ?_
  exact expandLabel_meets.bind fun _ _ => (ofExcept_meets _).bind fun _ _ => trivial

theorem finishedMac_meets : (finishedMac P c).Meets fun _ => True :=
  expandLabel_meets.bind fun _ _ => ofExcept_meets _

/-! ### A message -/

/-- The leaf's key lies in the certificate, and the certificate in the message. -/
theorem certificateKey_meets {body : List UInt8} (hlt : body.length < 2 ^ 32) : (certificateKey P pin body).Meets fun _ => True := by
  unfold certificateKey
  refine (parseCertificateMessage_meets body).mapError.bind fun leaf _ => ?_
  have hleaf : ((body.drop leaf.1).take leaf.2).length < 2 ^ 32 := by
    rw [List.length_take, List.length_drop]
    omega
  refine (Der.extractSpki_meets hleaf).mapError.bind fun spki _ => ?_
  dsimp only
  split_ifs
  · exact (ofExcept_meets _).mapError
  · trivial

theorem verifyCertificate_meets {body : List UInt8} : (verifyCertificate P c body).Meets fun _ => True := by
  unfold verifyCertificate
  refine (parseCertificateVerify_meets body).mapError.bind fun _ _ => ?_
  exact (ofExcept_meets _).bind fun _ _ => ofExcept_meets _

/-- Dispatching a message does nothing to what is left of the flight. -/
theorem dispatch_meets {msgType : UInt8} {body : List UInt8} (hlt : body.length < 2 ^ 32) :
    (dispatch P pin c msgType body).Meets fun r => r.1.flight = c.flight := by
  unfold dispatch
  split_ifs
  · trivial
  · rfl
  · trivial
  · exact (certificateKey_meets hlt).bind fun _ _ => (ofExcept_meets _).bind fun _ _ => rfl
  · trivial
  · exact verifyCertificate_meets.bind fun _ _ => (ofExcept_meets _).bind fun _ _ => rfl
  · trivial
  · refine finishedMac_meets.bind fun _ _ => ?_
    split_ifs
    · rfl
    · trivial
  · trivial

theorem processMessage_meets {message : List UInt8} (hlt : message.length < 2 ^ 32) :
    (processMessage P pin c message).Meets fun r => r.1.flight = c.flight := by
  have hbody : (message.drop 4).length < 2 ^ 32 := by
    rw [List.length_drop]
    omega
  exact .unless fun _ => (dispatch_meets hbody).mapError

/-! ### A record -/

/-- A message is no longer than its length can say. -/
theorem length_lt_of_isMessage {m : List UInt8} (h : IsMessage m) : m.length < 2 ^ 32 := by
  have hlt := ofBe_lt ((m.drop 1).take 3)
  have hlen : ((m.drop 1).take 3).length ≤ 3 := List.length_take_le _ _
  have hpow : 256 ^ ((m.drop 1).take 3).length ≤ 256 ^ 3 := Nat.pow_le_pow_right (by decide) hlen
  have hm := (isMessage_iff.1 h).2
  unfold bodyLength at hm
  omega

/-- Every turn takes a message off the flight. -/
theorem processFlightMessages_meets {turns : ℕ} (h : c.flight.length < turns) : (processFlightMessages P pin turns c).Meets fun _ => True := by
  induction turns generalizing c with
  | zero => exact absurd h (Nat.not_lt_zero _)
  | succ turns ih =>
    unfold processFlightMessages
    cases hcut : messageFraming.cut c.flight with
    | none => trivial
    | some cut =>
      obtain ⟨message, rest⟩ := cut
      obtain ⟨hwhole, hflight⟩ := Framing.whole_of_cut hcut
      have hlength := congrArg List.length hflight
      have hpos := Framing.Whole.length_pos hwhole
      rw [List.length_append] at hlength
      refine (processMessage_meets (length_lt_of_isMessage hwhole)).bind fun r hr => ?_
      obtain ⟨c', done⟩ := r
      have hrest : c'.flight = rest := hr
      cases done with
      | true => trivial
      | false =>
        apply ih
        rw [hrest]
        omega

theorem onReceiveServerHello_meets {payload : List UInt8} : (onReceiveServerHello P c payload).Meets fun _ => True := by
  unfold onReceiveServerHello
  refine .unless fun _ => .unless fun _ => .unless fun _ => .unless fun _ => ?_
  refine Meets.mapError ?_
  exact (parseServerHello_meets _).mapError.bind fun _ _ => deriveHandshakeKeys_meets.bind fun _ _ => trivial

theorem openRecord_meets {header payload : List UInt8} : (openRecord P c header payload).Meets fun _ => True := by
  unfold openRecord
  refine .unless fun _ => .unless fun _ => (ofExcept_meets _).bind fun plaintext _ => ?_
  cases stripInnerPlaintext plaintext.1 with
  | none => trivial
  | some content => exact .unless fun _ => trivial

theorem onReceiveRecordPayload_meets {record : List UInt8} : (onReceiveRecordPayload P pin c record).Meets fun _ => True := by
  unfold onReceiveRecordPayload
  dsimp only
  split_ifs
  · trivial
  · exact onReceiveServerHello_meets.bind fun _ _ => trivial
  · trivial
  · trivial
  · trivial
  · exact openRecord_meets.mapError.bind fun _ _ => processFlightMessages_meets (Nat.lt_succ_self _)

/-! ### A step -/

/-- The handshake goes on. -/
def Progress.goesOn : Progress → Bool
  | .sendingHello | .issuing | .receiving _ | .sendingFinished => true
  | .complete | .failed _ | .fault => false

theorem finish_ne_fault : (s.finish P k c).progress ≠ .fault := by
  unfold State.finish
  cases hderived : deriveApplicationKeys P c with
  | fault => exact absurd hderived (meets_iff.1 deriveApplicationKeys_meets).1
  | error status => exact nofun
  | ok derived =>
    dsimp only
    cases sealClientFinished P c derived.1 derived.2 with
    | error status => exact nofun
    | ok record => cases k.sent <;> exact nofun

theorem deliver_ne_fault {record : List UInt8} : (s.deliver P pin k record).progress ≠ .fault := by
  unfold State.deliver
  cases hreceived : onReceiveRecordPayload P pin s.ctx record with
  | fault => exact absurd hreceived (meets_iff.1 onReceiveRecordPayload_meets).1
  | error refusal => exact nofun
  | ok result =>
    obtain ⟨c, done⟩ := result
    cases done with
    | false => exact nofun
    | true => exact finish_ne_fault

theorem issue_ne_fault : (s.issue P pin size k).progress ≠ .fault := by
  unfold State.issue
  cases k.accumulator with
  | some status =>
    dsimp only
    split_ifs <;> exact nofun
  | none =>
    dsimp only
    split_ifs
    · exact nofun
    · exact nofun
    · exact deliver_ne_fault
    · unfold State.post
      cases k.posted <;> exact nofun

theorem afterSend_ne_fault {next : Progress} (h : next ≠ .fault) (result : Except Status Unit) : afterSend next result ≠ .fault := by
  cases result with
  | error status => exact nofun
  | ok _ => exact h

theorem next_ne_fault {act : Act} (hnext : next P pin size s act = some s') : s'.progress ≠ .fault := by
  unfold next at hnext
  cases act with
  | sentHello result =>
    dsimp only at hnext
    split_ifs at hnext
    obtain rfl := Option.some.inj hnext
    have hissuing : Progress.issuing ≠ .fault := by decide
    exact afterSend_ne_fault hissuing result
  | issue k =>
    dsimp only at hnext
    split_ifs at hnext
    obtain rfl := Option.some.inj hnext
    exact issue_ne_fault
  | received chunk =>
    dsimp only at hnext
    split at hnext
    · split_ifs at hnext
      obtain rfl := Option.some.inj hnext
      exact nofun
    · cases hnext
  | closed =>
    dsimp only at hnext
    split at hnext
    · obtain rfl := Option.some.inj hnext
      exact nofun
    · cases hnext
  | broken status =>
    dsimp only at hnext
    split at hnext
    · obtain rfl := Option.some.inj hnext
      exact nofun
    · cases hnext
  | sentFinished result =>
    dsimp only at hnext
    split_ifs at hnext
    obtain rfl := Option.some.inj hnext
    have hcomplete : Progress.complete ≠ .fault := by decide
    exact afterSend_ne_fault hcomplete result

/-- A handshake that goes on has a step to take. -/
theorem exists_next (h : s.progress.goesOn = true) : ∃ act, (next P pin size s act).isSome = true := by
  cases hprogress : s.progress with
  | sendingHello => exact ⟨.sentHello (.ok ⟨⟩), by rw [next, if_pos hprogress]; rfl⟩
  | issuing => exact ⟨.issue ⟨true, none, none, none⟩, by rw [next, if_pos hprogress]; rfl⟩
  | receiving room => exact ⟨.closed, by simp only [next, hprogress, Option.isSome_some]⟩
  | sendingFinished => exact ⟨.sentFinished (.ok ⟨⟩), by rw [next, if_pos hprogress]; rfl⟩
  | complete | failed | fault =>
    rw [hprogress] at h
    cases h

end BlorgFS.Tls.Handshake
