import BlorgFS.Tls.HandshakeMessages
import BlorgFS.Tls.KeyChange

/-! A flight in records. However the server's messages are cut into encrypted records, and however
the records come, the handshake comes to what the messages one by one would have brought it to. -/

namespace BlorgFS.Tls.Handshake

open Lib Checked

/-! ### What the server sends -/

/-- An encrypted record of some content: behind it the type of handshake data, and padding. -/
structure Seals (P : Primitives) (key iv : List UInt8) (seq : ℕ) (record content : List UInt8) : Prop where
  type : record.getD 0 0 = 0x17
  tag : tagLength ≤ (record.drop 5).length
  decrypts : ∃ plaintext padding,
    P.aeadDecrypt key (buildNonce iv seq) (record.take 5) ((record.drop 5).take ((record.drop 5).length - tagLength))
      ((record.drop 5).drop ((record.drop 5).length - tagLength)) = .ok plaintext ∧
    plaintext.1 = content ++ 0x16 :: List.replicate padding 0

/-- Records that carry a flight from a sequence number on, a change_cipher_spec anywhere among them. -/
inductive Carries (P : Primitives) (key iv : List UInt8) : ℕ → List (List UInt8) → List UInt8 → Prop
  | nil (seq : ℕ) : Carries P key iv seq [] []
  | changeCipherSpec {seq : ℕ} {record : List UInt8} {rs : List (List UInt8)} {flight : List UInt8} (htype : record.getD 0 0 = 0x14)
    (hrest : Carries P key iv seq rs flight) : Carries P key iv seq (record :: rs) flight
  | content {seq : ℕ} {record content : List UInt8} {rs : List (List UInt8)} {flight : List UInt8} (hseals : Seals P key iv seq record content)
    (hrest : Carries P key iv (seq + 1) rs flight) : Carries P key iv seq (record :: rs) (content ++ flight)

/-- What a server sends: a record with a ServerHello and nothing else, and behind it messages in
any number of records, under the key that the ServerHello leads to. -/
structure Sent (P : Primitives) (start : Context) (hello : List UInt8) (ms records : List (List UInt8)) : Prop where
  whole : ∀ r ∈ records, IsRecord r ∧ r.length ≤ recordMax
  messages : ∀ m ∈ ms, IsMessage m
  fits : start.transcript.length + hello.length + ms.flatten.length ≤ transcriptMax
  split : ∃ first rest, records = first :: rest ∧ first.getD 0 0 = 0x16 ∧ first.drop 5 = hello ∧
    ∀ c, onReceiveServerHello P start hello = .ok c → Carries P c.serverHsKey c.serverHsIv 0 rest ms.flatten

/-! ### What it comes to -/

/-- What a handshake has come to: more is waited for, or it is over. How its records were cut is
left out of it. -/
inductive Outcome where
  | waiting (c : Context)
  | complete (c : Context) (keys : Option Keys)
  | failed (status : Status) (dispatched : List (List UInt8))
  | fault

def State.outcome (s : State) : Outcome :=
  match s.progress with
  | .sendingHello | .issuing | .receiving _ => .waiting s.ctx.shared
  | .sendingFinished | .complete => .complete s.ctx.shared s.keys
  | .failed status => .failed status s.ctx.dispatched
  | .fault => .fault

section Functions

variable (P : Primitives) (pin : Option Digest)

/-- The Finished has come. -/
def concluded (c : Context) : Outcome :=
  match deriveApplicationKeys P c with
  | .fault => .fault
  | .error status => .failed status c.dispatched
  | .ok (keys, clientFinishedMac) =>
    match sealClientFinished P c keys clientFinishedMac with
    | .error status => .failed status c.dispatched
    | .ok _ => .complete c.shared (some keys)

/-- What messages of a flight lead to. -/
def flightOutcome : Checked Refusal (Context × Bool) → Outcome
  | .fault => .fault
  | .error refusal => .failed refusal.status refusal.dispatched
  | .ok (c, false) => .waiting c.shared
  | .ok (c, true) => concluded P c

/-- A ServerHello and messages one by one, without any records. -/
def oneByOne (start : Context) (hello : List UInt8) (ms : List (List UInt8)) : Outcome :=
  match onReceiveServerHello P start hello with
  | .fault => .fault
  | .error refusal => .failed refusal.status refusal.dispatched
  | .ok c => flightOutcome P (processMessages P pin c ms)

end Functions

/-! ### One record -/

section Record

variable {P : Primitives} {pin : Option Digest} {c : Context} {record content : List UInt8}

theorem Seals.openRecord (h : Seals P c.serverHsKey c.serverHsIv c.serverSeq record content)
    (hroom : c.flight.length + ((record.drop 5).length - tagLength) ≤ flightMax) :
    openRecord P c (record.take 5) (record.drop 5) = .ok content := by
  obtain ⟨plaintext, padding, hdecrypt, hplaintext⟩ := h.decrypts
  unfold Handshake.openRecord
  rw [if_neg (Nat.not_lt.2 h.tag)]
  dsimp only
  rw [if_neg (Nat.not_lt.2 hroom), hdecrypt, ofExcept_ok, ok_bind, hplaintext, stripInnerPlaintext_append (by decide)]
  dsimp only
  rw [if_neg (not_not.2 rfl), List.take_left]

/-- An encrypted record past the ServerHello: its content goes behind the flight, and the messages
that are then there are taken out. -/
theorem Seals.received (h : Seals P c.serverHsKey c.serverHsIv c.serverSeq record content) (hstage : c.stage = .waitingForFlightRecord)
    (hroom : c.flight.length + ((record.drop 5).length - tagLength) ≤ flightMax) :
    onReceiveRecordPayload P pin c record =
      processFlightMessages P pin ((c.flight ++ content).length + 1) (c.withRecords (c.serverSeq + 1) (c.flight ++ content) (c.contents ++ [content])) := by
  unfold onReceiveRecordPayload
  dsimp only
  rw [if_neg (by rw [hstage]; decide), if_neg (by rw [h.type]; decide), if_neg (by rw [h.type]; decide), if_neg (not_not.2 h.type),
    h.openRecord hroom]
  rfl

theorem received_changeCipherSpec (htype : record.getD 0 0 = 0x14) (hstage : c.stage = .waitingForFlightRecord) :
    onReceiveRecordPayload P pin c record = .ok (c, false) := by
  unfold onReceiveRecordPayload
  dsimp only
  rw [if_neg (by rw [hstage]; decide), if_neg (by rw [htype]; decide), if_pos htype]

theorem received_hello (htype : record.getD 0 0 = 0x16) (hstage : c.stage = .waitingForServerHello) :
    onReceiveRecordPayload P pin c record = onReceiveServerHello P c (record.drop 5) >>= fun c => .ok (c, false) := by
  unfold onReceiveRecordPayload
  dsimp only
  rw [if_pos hstage, if_neg (not_not.2 htype)]

end Record

/-! ### Record after record -/

/-- Nothing has been received yet. -/
structure Context.Opening (c : Context) : Prop where
  stage : c.stage = .waitingForServerHello
  flight : c.flight = []
  serverSeq : c.serverSeq = 0

theorem fresh_opening (clientPrivate clientPublic clientHello : List UInt8) : (Context.fresh clientPrivate clientPublic clientHello).Opening := ⟨rfl, rfl, rfl⟩

/-- Where a context is while records are left: nothing has been received, or the records so far
were those messages and the beginning of another. -/
inductive At (P : Primitives) (pin : Option Digest) (start : Context) (hello : List UInt8) (ms : List (List UInt8)) : Context → List (List UInt8) → Prop
  | hello {first : List UInt8} {rest : List (List UInt8)} (htype : first.getD 0 0 = 0x16) (hpayload : first.drop 5 = hello)
    (hcarries : ∀ c, onReceiveServerHello P start hello = .ok c → Carries P c.serverHsKey c.serverHsIv 0 rest ms.flatten) :
    At P pin start hello ms start (first :: rest)
  | flight {greeted c : Context} {before after left : List (List UInt8)} {begun flight : List UInt8} (hgreeted : onReceiveServerHello P start hello = .ok greeted)
    (hms : ms = before ++ after) (hprocessed : processMessages P pin greeted before = .ok (c, false)) (seq : ℕ) (contents : List (List UInt8))
    (hcarries : Carries P greeted.serverHsKey greeted.serverHsIv seq left flight) (hafter : begun ++ flight = after.flatten)
    (hbegun : messageFraming.cut begun = none) : At P pin start hello ms (c.withRecords seq begun contents) left

section Records

variable {P : Primitives} {pin : Option Digest} {start c : Context} {hello record : List UInt8} {ms left : List (List UInt8)}

theorem messages_lt {rs : List (List UInt8)} (h : ∀ m ∈ rs, IsMessage m) : rs.length ≤ rs.flatten.length := by
  induction rs with
  | nil => exact Nat.le_refl 0
  | cons m rs ih =>
    have hm := (h m List.mem_cons_self).length_pos
    have hrs := ih fun m hm => h m (List.mem_cons_of_mem _ hm)
    rw [List.flatten_cons, List.length_append, List.length_cons]
    omega

/-- What receiving a record has come to, next to what the messages one by one come to: the same if
that is the end of it. -/
inductive Leads (P : Primitives) (pin : Option Digest) (start : Context) (hello : List UInt8) (ms left : List (List UInt8)) :
    Checked Refusal (Context × Bool) → Prop
  | fault (h : oneByOne P pin start hello ms = .fault) : Leads P pin start hello ms left .fault
  | refused (refusal : Refusal) (h : oneByOne P pin start hello ms = .failed refusal.status refusal.dispatched) : Leads P pin start hello ms left (.error refusal)
  | going (c : Context) (h : At P pin start hello ms c left) : Leads P pin start hello ms left (.ok (c, false))
  | finished (c : Context) (h : oneByOne P pin start hello ms = concluded P c) : Leads P pin start hello ms left (.ok (c, true))

theorem oneByOne_of_greeted {greeted : Context} (h : onReceiveServerHello P start hello = .ok greeted) :
    oneByOne P pin start hello ms = flightOutcome P (processMessages P pin greeted ms) := by
  unfold oneByOne
  rw [h]

/-- A record in which messages end, some or none. -/
theorem leads_processed {greeted : Context} {before now after : List (List UInt8)} {begun behind flight : List UInt8}
    (hgreeted : onReceiveServerHello P start hello = .ok greeted) (hms : ms = before ++ (now ++ after))
    (hprocessed : processMessages P pin greeted before = .ok (c, false)) {seq : ℕ} (contents : List (List UInt8))
    (hcarries : Carries P greeted.serverHsKey greeted.serverHsIv seq left flight) (hafter : begun ++ flight = after.flatten)
    (hbegun : messageFraming.cut begun = none) :
    Leads P pin start hello ms left (processMessages P pin c now >>= fun r => .ok (r.1.withRecords seq (if r.2 then behind else begun) contents, r.2)) := by
  have hall : oneByOne P pin start hello ms = flightOutcome P (processMessages P pin greeted (before ++ (now ++ after))) := by
    rw [oneByOne_of_greeted hgreeted, hms]
  rw [processMessages_append, hprocessed, ok_bind, if_neg Bool.false_ne_true, processMessages_append] at hall
  cases hnow : processMessages P pin c now with
  | fault =>
    rw [hnow] at hall
    exact .fault hall
  | error refusal =>
    rw [hnow] at hall
    exact .refused refusal hall
  | ok r =>
    obtain ⟨c', done⟩ := r
    rw [hnow, ok_bind] at hall
    cases done with
    | true => exact .finished _ hall
    | false =>
      have hms' : ms = before ++ now ++ after := by rw [hms, List.append_assoc]
      have hprocessed' : processMessages P pin greeted (before ++ now) = .ok (c', false) := by
        rw [processMessages_append, hprocessed, ok_bind, if_neg Bool.false_ne_true, hnow]
      exact .going _ (.flight hgreeted hms' hprocessed' seq contents hcarries hafter hbegun)

/-- What the next record leads to. -/
theorem At.received (h : At P pin start hello ms c (record :: left)) (hopening : start.Opening) (hmessages : ∀ m ∈ ms, IsMessage m)
    (hfits : start.transcript.length + hello.length + ms.flatten.length ≤ transcriptMax) (hlength : record.length ≤ recordMax) :
    Leads P pin start hello ms left (onReceiveRecordPayload P pin c record) := by
  cases h with
  | hello htype hpayload hcarries =>
    rw [received_hello htype hopening.stage, hpayload]
    cases hgreeted : onReceiveServerHello P start hello with
    | fault => exact .fault (by rw [oneByOne, hgreeted])
    | error refusal => exact .refused refusal (by rw [oneByOne, hgreeted])
    | ok greeted =>
      obtain ⟨key, hunkeyed⟩ := (onReceiveServerHello_cases hgreeted).unkeyed
      have hflight' : greeted.flight = [] := (congrArg Context.flight hunkeyed).trans hopening.flight
      have hseq' : greeted.serverSeq = 0 := (congrArg Context.serverSeq hunkeyed).trans hopening.serverSeq
      have hsame : greeted = greeted.withRecords 0 [] greeted.contents := by
        conv_lhs => rw [show greeted = greeted.withRecords greeted.serverSeq greeted.flight greeted.contents from rfl, hflight', hseq']
      have hms : ms = [] ++ ms := rfl
      have hnone : processMessages P pin greeted [] = .ok (greeted, false) := rfl
      rw [ok_bind, hsame]
      exact .going _ (.flight hgreeted hms hnone 0 greeted.contents (hcarries greeted hgreeted) rfl cut_nil)
  | @flight greeted c before after _ begun flight hgreeted hms hprocessed seq contents hcarries hafter hbegun =>
    have hcore := processMessages_core hprocessed
    obtain ⟨_, hunkeyed⟩ := (onReceiveServerHello_cases hgreeted).unkeyed
    have hflightStage : (c.withRecords seq begun contents).stage = .waitingForFlightRecord :=
      (congrArg Context.stage hcore).trans (congrArg Context.stage hunkeyed)
    cases hcarries with
    | changeCipherSpec htype hrest =>
      rw [received_changeCipherSpec htype hflightStage]
      exact .going _ (.flight hgreeted hms hprocessed seq contents hrest hafter hbegun)
    | @content _ _ content _ flight hseals hrest =>
      have hkey : c.serverHsKey = greeted.serverHsKey := (congrArg Context.serverHsKey hcore :)
      have hiv : c.serverHsIv = greeted.serverHsIv := (congrArg Context.serverHsIv hcore :)
      have hseals' : Seals P (c.withRecords seq begun contents).serverHsKey (c.withRecords seq begun contents).serverHsIv
          (c.withRecords seq begun contents).serverSeq record content := by
        show Seals P c.serverHsKey c.serverHsIv seq record content
        rw [hkey, hiv]
        exact hseals
      have hbelow : begun.length ≤ ms.flatten.length := by
        have hlengths := congrArg List.length hafter
        rw [List.length_append] at hlengths
        rw [hms, List.flatten_append, List.length_append]
        omega
      have hroom : begun.length + ((record.drop 5).length - tagLength) ≤ flightMax := by
        rw [List.length_drop]
        simp only [transcriptMax, recordMax, ciphertextMax, tagLength, flightMax] at hfits hlength ⊢
        omega
      rw [hseals'.received hflightStage hroom]
      obtain ⟨now, rest, hnow, hwhole, hrest'⟩ := messageFraming.exists_items (begun ++ content)
      have hafterWhole : ∀ m ∈ after, IsMessage m := fun m hm => hmessages m (hms ▸ List.mem_append_right _ hm)
      have hflat : now.flatten ++ (rest ++ flight) = after.flatten := by rw [← List.append_assoc, ← hnow, List.append_assoc, hafter]
      obtain ⟨tail, rfl, htail⟩ := Framing.prefix_of_flatten hwhole hafterWhole hflat
      have hturns : now.length < (begun ++ content).length + 1 := by
        have hle := messages_lt hwhole
        rw [hnow, List.length_append]
        omega
      obtain ⟨behind, hdrained⟩ := @processFlightMessages_eq P pin c (seq + 1) (contents ++ [content]) now rest hwhole hrest' _ hturns
      rw [← hnow] at hdrained
      refine Eq.mpr (congrArg _ hdrained) ?_
      exact leads_processed hgreeted hms hprocessed _ hrest htail.symm hrest'

end Records

end BlorgFS.Tls.Handshake
