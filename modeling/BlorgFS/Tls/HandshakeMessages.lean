import BlorgFS.Tls.HandshakeSteps

/-! The messages of a flight one after another. Taking them out of the flight buffer leads to the
same, whatever records they came in and whatever has been decrypted by then. -/

namespace BlorgFS.Tls.Handshake

open Lib Checked

/-- The context with other records behind it: how many there were, what is left of their contents,
and the contents. -/
def Context.withRecords (c : Context) (serverSeq : ℕ) (flight : List UInt8) (contents : List (List UInt8)) : Context :=
  { c with serverSeq, flight, contents }

/-- What there is of a context when the records are left out of account. -/
def Context.shared (c : Context) : Context := c.withRecords 0 [] []

section Functions

variable (P : Primitives) (pin : Option Digest)

/-- Messages one after another, up to the Finished. -/
def processMessages : Context → List (List UInt8) → Checked Refusal (Context × Bool)
  | c, [] => .ok (c, false)
  | c, message :: ms => do
    let (c, done) ← processMessage P pin c message
    if done then .ok (c, true) else processMessages c ms

end Functions

variable {P : Primitives} {pin : Option Digest} {c c' : Context} {done : Bool} {n : ℕ} {flight : List UInt8} {contents : List (List UInt8)}

/-- What is done for a message does not depend on the records. -/
theorem dispatch_withRecords {msgType : UInt8} {body : List UInt8} :
    dispatch P pin (c.withRecords n flight contents) msgType body =
      dispatch P pin c msgType body >>= fun r => .ok (r.1.withRecords n flight contents, r.2) := by
  unfold dispatch
  simp only [ite_bind, bind_bind, error_bind, ok_bind]
  rfl

theorem processMessage_withRecords {message : List UInt8} :
    processMessage P pin (c.withRecords n flight contents) message =
      processMessage P pin c message >>= fun r => .ok (r.1.withRecords n flight contents, r.2) := by
  unfold processMessage
  simp only [ite_bind, error_bind]
  congr 1
  let logged : Context := { c with transcript := c.transcript ++ message, dispatched := c.dispatched ++ [message] }
  have hdispatch : dispatch P pin (logged.withRecords n flight contents) (messageType message) (message.drop 4) = _ := dispatch_withRecords
  refine (congrArg _ hdispatch).trans ?_
  cases dispatch P pin logged (messageType message) (message.drop 4) <;> rfl

/-- Messages in two parts. -/
theorem processMessages_append (ms ms' : List (List UInt8)) :
    processMessages P pin c (ms ++ ms') = processMessages P pin c ms >>= fun r => if r.2 then .ok (r.1, true) else processMessages P pin r.1 ms' := by
  induction ms generalizing c with
  | nil => rfl
  | cons m ms ih =>
    rw [List.cons_append, processMessages, processMessages, bind_bind]
    congr 1
    funext r
    obtain ⟨c', done⟩ := r
    cases done with
    | true => rfl
    | false => exact ih

theorem processMessages_core {ms : List (List UInt8)} (h : processMessages P pin c ms = .ok (c', done)) : c'.core = c.core := by
  induction ms generalizing c with
  | nil =>
    cases h
    rfl
  | cons m ms ih =>
    obtain ⟨⟨c₁, done₁⟩, hmessage, h⟩ := bind_eq_ok.1 h
    have hcore : c₁.core = c.core := (processMessage_cases hmessage).core
    dsimp only at h
    split_ifs at h
    · cases h
      exact hcore
    · exact (ih h).trans hcore

/-- What is taken out of a flight buffer is its messages one after another. What is not a message
yet stays, and behind the Finished everything. -/
theorem processFlightMessages_eq {ms : List (List UInt8)} {rest : List UInt8} (hwhole : ∀ m ∈ ms, IsMessage m) (hrest : messageFraming.cut rest = none)
    {turns : ℕ} (hturns : ms.length < turns) :
    ∃ behind, processFlightMessages P pin turns (c.withRecords n (ms.flatten ++ rest) contents) =
      processMessages P pin c ms >>= fun r => .ok (r.1.withRecords n (if r.2 then behind else rest) contents, r.2) := by
  induction ms generalizing c turns with
  | nil =>
    obtain ⟨turns, rfl⟩ := Nat.exists_eq_add_of_lt hturns
    refine ⟨[], ?_⟩
    unfold processFlightMessages
    rw [show (c.withRecords n (List.flatten [] ++ rest) contents).flight = rest from rfl, hrest]
    rfl
  | cons m ms ih =>
    obtain ⟨turns, rfl⟩ := Nat.exists_eq_add_of_lt hturns
    have hcut : messageFraming.cut (c.withRecords n ((m :: ms).flatten ++ rest) contents).flight = some (m, ms.flatten ++ rest) := by
      show messageFraming.cut ((m :: ms).flatten ++ rest) = _
      rw [List.flatten_cons, List.append_assoc, (hwhole m List.mem_cons_self).cut_append]
    have hfirst : processFlightMessages P pin ((m :: ms).length + turns + 1) (c.withRecords n ((m :: ms).flatten ++ rest) contents) =
        processMessage P pin (c.withRecords n (ms.flatten ++ rest) contents) m >>= fun r =>
          if r.2 then .ok (r.1, true) else processFlightMessages P pin ((m :: ms).length + turns) r.1 := by
      rw [processFlightMessages, hcut]
      rfl
    rw [hfirst, processMessage_withRecords, processMessages]
    cases processMessage P pin c m with
    | fault => exact ⟨[], rfl⟩
    | error refusal => exact ⟨[], rfl⟩
    | ok r =>
      obtain ⟨c₁, done₁⟩ := r
      cases done₁ with
      | true => exact ⟨ms.flatten ++ rest, rfl⟩
      | false => exact ih (fun m hm => hwhole m (List.mem_cons_of_mem _ hm)) (by rw [List.length_cons]; omega)

end BlorgFS.Tls.Handshake
