import BlorgFS.Tls.HandshakeSteps

/-! Runs of the handshake. The records taken off and what the accumulator holds are what was
received; and what starting a handshake sets up and receiving a record keeps holds between any two
steps, until the handshake fails. -/

namespace BlorgFS.Tls.Handshake

open Lib Checked

/-! ### What has been received -/

/-- What has been received is the records taken off and what the accumulator still holds. -/
structure Stream (size : SystemSize) (acc : Accumulator) (wire : List UInt8) (taken : List (List UInt8)) : Prop where
  fits : acc.Fits size
  wire : wire = taken.flatten ++ acc.pending
  records : ∀ r ∈ taken, IsRecord r

namespace Stream

variable {size : SystemSize} {acc : Accumulator} {wire : List UInt8} {taken : List (List UInt8)}

theorem consume (h : Stream size acc wire taken) (hwhole : 5 + acc.declared ≤ acc.buffered) : Stream size acc.consume wire (taken ++ [acc.record]) where
  fits := h.fits.consume hwhole
  wire := by rw [h.wire, h.fits.pending_consume hwhole, List.flatten_append, List.flatten_singleton, List.append_assoc]
  records := List.forall_mem_append.2 ⟨h.records, fun _ hr => List.mem_singleton.1 hr ▸ h.fits.isRecord_record hwhole⟩

theorem settle (h : Stream size acc wire taken) : Stream size (acc.settle size) wire taken where
  fits := h.fits.settle
  wire := by rw [h.fits.pending_settle, h.wire]
  records := h.records

theorem arrive (h : Stream size acc wire taken) {chunk : List UInt8} (hchunk : chunk.length ≤ acc.room size) :
    Stream size (acc.arrive chunk) (wire ++ chunk) taken where
  fits := h.fits.arrive hchunk
  wire := by rw [h.fits.pending_arrive hchunk, h.wire, List.append_assoc]
  records := h.records

/-- The records taken off are the first ones of what was received. -/
theorem records_wire (h : Stream size acc wire taken) : Tls.records wire = taken ++ Tls.records acc.pending := by
  rw [h.wire]
  exact Framing.items_flatten h.records _

end Stream

/-- Whether the server's Finished has been found, while the handshake has not failed. -/
def Progress.found : Progress → Option Bool
  | .sendingHello | .issuing | .receiving _ => some false
  | .sendingFinished | .complete => some true
  | .failed _ | .fault => none

/-! ### What holds between two steps -/

/-- What a statement about the context, the records taken and whether the Finished has come must
do to hold between any two steps. -/
structure Carried (P : Primitives) (pin : Option Digest) (I : Context → List (List UInt8) → Bool → Prop) : Prop where
  received : ∀ {c c' taken record done}, I c taken false → Received P pin c record c' done → I c' (taken ++ [record]) done

/-- What holds between any two steps: the receives are in order, the statement holds, and the keys
are those that follow from the context. -/
structure Inv (P : Primitives) (size : SystemSize) (I : Context → List (List UInt8) → Bool → Prop) (s : State) : Prop where
  stream : Stream size s.acc s.wire s.taken
  room : ∀ room, s.progress = .receiving room → room = s.acc.room size
  holds : ∀ done, s.progress.found = some done → I s.ctx s.taken done
  keyed : s.progress.found = some true → ∃ keys mac, s.keys = some keys ∧ deriveApplicationKeys P s.ctx = .ok (keys, mac)

namespace Inv

variable {P : Primitives} {pin : Option Digest} {size : SystemSize} {I : Context → List (List UInt8) → Bool → Prop} {k : Choice} {s s' : State}

theorem failed (h : Stream size s.acc s.wire s.taken) (status : Status) : Inv P size I { s with progress := .failed status } := ⟨h, nofun, nofun, nofun⟩

theorem start {clientPrivate clientPublic clientHello : List UInt8} (hfresh : I (.fresh clientPrivate clientPublic clientHello) [] false)
    (buffer : ℕ → UInt8) : Inv P size I (.start clientPrivate clientPublic clientHello buffer) where
  stream := ⟨⟨Nat.le_refl 0, Nat.zero_le _⟩, rfl, nofun⟩
  room := nofun
  holds done hfound := by
    obtain rfl := Option.some.inj hfound
    exact hfresh
  keyed := nofun

/-- What a completed send leads to, once it is known how far the records have come. -/
theorem afterSend {next : Progress} {done : Bool} (h : Inv P size I s) (hfound : s.progress.found = some done) (hnext : next.found = some done)
    (hroom : ∀ room, next ≠ .receiving room) (result : Except Status Unit) : Inv P size I { s with progress := Handshake.afterSend next result } := by
  cases result with
  | error status => exact failed h.stream status
  | ok _ =>
    have hsame : next.found = s.progress.found := hnext.trans hfound.symm
    refine ⟨h.stream, fun room hreceiving => absurd hreceiving (hroom room), fun found hfound' => h.holds found ?_, fun hfound' => h.keyed ?_⟩
    · exact hsame.symm.trans hfound'
    · exact hsame.symm.trans hfound'

theorem finish {c : Context} (h : Stream size s.acc s.wire s.taken) (hI : I c s.taken true) : Inv P size I (s.finish P k c) := by
  unfold State.finish
  cases hderived : deriveApplicationKeys P c with
  | fault => exact ⟨h, nofun, nofun, nofun⟩
  | error status => exact ⟨h, nofun, nofun, nofun⟩
  | ok derived =>
    obtain ⟨keys, mac⟩ := derived
    cases hsealed : sealClientFinished P c keys mac with
    | error status =>
      simp only [hsealed]
      exact ⟨h, nofun, nofun, nofun⟩
    | ok record =>
      simp only [hsealed]
      cases k.sent with
      | some status => exact ⟨h, nofun, nofun, nofun⟩
      | none => exact ⟨h, nofun, fun done hfound => Option.some.inj hfound ▸ hI, fun _ => ⟨keys, mac, rfl, hderived⟩⟩

variable (hcarried : Carried P pin I)

include hcarried

theorem deliver {earlier : List (List UInt8)} {record : List UInt8} (h : Stream size s.acc s.wire s.taken) (htaken : s.taken = earlier ++ [record])
    (hI : I s.ctx earlier false) : Inv P size I (s.deliver P pin k record) := by
  unfold State.deliver
  cases hreceived : onReceiveRecordPayload P pin s.ctx record with
  | fault => exact ⟨h, nofun, nofun, nofun⟩
  | error refusal => exact ⟨h, nofun, nofun, nofun⟩
  | ok result =>
    obtain ⟨c, done⟩ := result
    have hnext := hcarried.received hI (onReceiveRecordPayload_cases hreceived)
    rw [← htaken] at hnext
    cases done with
    | false => exact ⟨h, nofun, fun done hfound => Option.some.inj hfound ▸ hnext, nofun⟩
    | true => exact finish h hnext

omit hcarried in
theorem post (h : Inv P size I s) (hissuing : s.progress = .issuing) : Inv P size I (s.post size k) := by
  unfold State.post
  cases k.posted with
  | some status => exact ⟨h.stream.settle, nofun, nofun, nofun⟩
  | none =>
    refine ⟨h.stream.settle, fun room hroom => (Progress.receiving.inj hroom).symm, fun done hfound => h.holds done ?_, nofun⟩
    rw [hissuing]
    exact hfound

theorem issue (h : Inv P size I s) (hissuing : s.progress = .issuing) : Inv P size I (s.issue P pin size k) := by
  unfold State.issue
  cases k.accumulator with
  | some status =>
    dsimp only
    split_ifs
    · exact failed h.stream _
    · exact failed h.stream status
  | none =>
    dsimp only
    split_ifs with hstack hlong hwhole
    · exact failed h.stream _
    · exact failed h.stream _
    · refine deliver (s := s.take) hcarried (h.stream.consume hwhole.2) rfl (h.holds false ?_)
      show s.progress.found = some false
      rw [hissuing]
      rfl
    · exact post h hissuing

theorem next {act : Act} (h : Inv P size I s) (hnext : Handshake.next P pin size s act = some s') : Inv P size I s' := by
  unfold Handshake.next at hnext
  cases act with
  | sentHello result =>
    dsimp only at hnext
    split_ifs at hnext with hprogress
    obtain rfl := Option.some.inj hnext
    exact h.afterSend (congrArg Progress.found hprogress) rfl (by rintro _ ⟨⟩) result
  | issue k =>
    dsimp only at hnext
    split_ifs at hnext with hprogress
    obtain rfl := Option.some.inj hnext
    exact issue hcarried h hprogress
  | received chunk =>
    cases hprogress : s.progress with
    | receiving room =>
      simp only [hprogress] at hnext
      split_ifs at hnext with hchunk
      obtain rfl := Option.some.inj hnext
      refine ⟨h.stream.arrive (h.room room hprogress ▸ hchunk.2), nofun, fun done hfound => h.holds done ?_, nofun⟩
      rw [hprogress]
      exact hfound
    | _ => simp only [hprogress, reduceCtorEq] at hnext
  | closed =>
    cases hprogress : s.progress with
    | receiving room =>
      simp only [hprogress] at hnext
      obtain rfl := Option.some.inj hnext
      exact failed h.stream _
    | _ => simp only [hprogress, reduceCtorEq] at hnext
  | broken status =>
    cases hprogress : s.progress with
    | receiving room =>
      simp only [hprogress] at hnext
      obtain rfl := Option.some.inj hnext
      exact failed h.stream _
    | _ => simp only [hprogress, reduceCtorEq] at hnext
  | sentFinished result =>
    dsimp only at hnext
    split_ifs at hnext with hprogress
    obtain rfl := Option.some.inj hnext
    exact h.afterSend (congrArg Progress.found hprogress) rfl (by rintro _ ⟨⟩) result

/-- Over a run from a given start. -/
theorem run {acts : List Act} (h : Inv P size I s) (hrun : Lib.run (Handshake.next P pin size) s acts = some s') : Inv P size I s' := by
  induction acts generalizing s with
  | nil => exact Option.some.inj hrun ▸ h
  | cons act acts ih =>
    obtain ⟨s₁, hnext, hrest⟩ := Option.bind_eq_some_iff.1 hrun
    exact ih (next hcarried h hnext) hrest

theorem reachable (hfresh : ∀ clientPrivate clientPublic clientHello, I (.fresh clientPrivate clientPublic clientHello) [] false)
    (h : (handshaking P pin size).Reachable s) : Inv P size I s := by
  refine System.invariant ?_ ?_ h
  · rintro _ ⟨clientPrivate, clientPublic, clientHello, buffer, rfl⟩
    exact start (hfresh _ _ _) buffer
  · rintro s s' _ hs ⟨act, hnext⟩
    exact next hcarried hs hnext

end Inv

end BlorgFS.Tls.Handshake
