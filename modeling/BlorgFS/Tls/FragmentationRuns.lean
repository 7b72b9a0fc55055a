import BlorgFS.Tls.Fragmentation

/-! Runs through the records that a server sends, in whatever pieces they come: what such a run
comes to, that it comes to it, and what it leaves in the accumulator behind the Finished. -/

namespace BlorgFS.Tls.Handshake

open Lib Checked

/-! ### Runs -/

/-- Nothing is denied. -/
structure Choice.Granted (k : Choice) : Prop where
  stack : k.stack = true
  accumulator : k.accumulator = none
  posted : k.posted = none
  sent : k.sent = none

/-- A step in which nothing fails but what the peer has sent. -/
inductive Act.Granted : Act → Prop
  | sentHello : Act.Granted (.sentHello (.ok ()))
  | issue {k : Choice} (h : k.Granted) : Act.Granted (.issue k)
  | received (chunk : List UInt8) : Act.Granted (.received chunk)
  | sentFinished : Act.Granted (.sentFinished (.ok ()))

/-- Nothing more is going to happen: it is over, or all there is has been received. -/
def State.Settled (wire : List UInt8) (s : State) : Prop :=
  match s.progress with
  | .complete | .failed _ | .fault => True
  | .receiving _ => s.wire = wire
  | .sendingHello | .issuing | .sendingFinished => False

/-- A handshake on its way through the records that are sent. -/
structure Course (P : Primitives) (pin : Option Digest) (size : SystemSize) (start : Context) (hello : List UInt8) (ms records : List (List UInt8))
    (s : State) : Prop where
  stream : Stream size s.acc s.wire s.taken
  room : ∀ room, s.progress = .receiving room → room = s.acc.room size ∧ 0 < room ∧ Short s.acc.pending
  going : s.progress.found = some false → ∃ left, records = s.taken ++ left ∧ At P pin start hello ms s.ctx left
  ended : s.progress.found ≠ some false → s.outcome = oneByOne P pin start hello ms

section Runs

variable {P : Primitives} {pin : Option Digest} {size : SystemSize} {start : Context} {hello wire : List UInt8} {ms records : List (List UInt8)} {k : Choice}
  {act : Act} {acts : List Act} {s s' : State}

/-- What the client sends has nothing to do with what has been received. -/
theorem finish_received {c : Context} : (s.finish P k c).acc = s.acc ∧ (s.finish P k c).wire = s.wire ∧ (s.finish P k c).taken = s.taken := by
  unfold State.finish
  cases deriveApplicationKeys P c with
  | fault => exact ⟨rfl, rfl, rfl⟩
  | error status => exact ⟨rfl, rfl, rfl⟩
  | ok derived =>
    dsimp only
    cases sealClientFinished P c derived.1 derived.2 with
    | error status => exact ⟨rfl, rfl, rfl⟩
    | ok record =>
      cases k.sent with
      | some status => exact ⟨rfl, rfl, rfl⟩
      | none => exact ⟨rfl, rfl, rfl⟩

theorem deliver_wire {record : List UInt8} : (s.deliver P pin k record).wire = s.wire := by
  unfold State.deliver
  cases onReceiveRecordPayload P pin s.ctx record with
  | fault => rfl
  | error refusal => rfl
  | ok r =>
    obtain ⟨c, done⟩ := r
    cases done with
    | false => rfl
    | true => exact finish_received.2.1

theorem issue_wire : (s.issue P pin size k).wire = s.wire := by
  unfold State.issue
  cases k.accumulator with
  | some status =>
    dsimp only
    split_ifs <;> rfl
  | none =>
    dsimp only
    split_ifs
    · rfl
    · rfl
    · exact deliver_wire
    · unfold State.post
      cases k.posted <;> rfl

/-- What a step can be. -/
inductive Stepped (P : Primitives) (pin : Option Digest) (size : SystemSize) (s : State) : Act → State → Prop
  | sentHello (result : Except Status Unit) (h : s.progress = .sendingHello) :
    Stepped P pin size s (.sentHello result) { s with progress := afterSend .issuing result }
  | issue (k : Choice) (h : s.progress = .issuing) : Stepped P pin size s (.issue k) (s.issue P pin size k)
  | received (chunk : List UInt8) (room : ℕ) (h : s.progress = .receiving room) (hpos : 0 < chunk.length) (hle : chunk.length ≤ room) :
    Stepped P pin size s (.received chunk) { s with acc := s.acc.arrive chunk, wire := s.wire ++ chunk, progress := .issuing }
  | ended (act : Act) (status : Status) (room : ℕ) (h : s.progress = .receiving room) (hdenied : ¬ act.Granted) :
    Stepped P pin size s act { s with progress := .failed status }
  | sentFinished (result : Except Status Unit) (h : s.progress = .sendingFinished) :
    Stepped P pin size s (.sentFinished result) { s with progress := afterSend .complete result }

theorem next_stepped (h : next P pin size s act = some s') : Stepped P pin size s act s' := by
  unfold next at h
  cases act with
  | sentHello result =>
    dsimp only at h
    split_ifs at h with hprogress
    exact Option.some.inj h ▸ .sentHello result hprogress
  | issue k =>
    dsimp only at h
    split_ifs at h with hprogress
    exact Option.some.inj h ▸ .issue k hprogress
  | received chunk =>
    cases hprogress : s.progress with
    | receiving room =>
      simp only [hprogress] at h
      split_ifs at h with hchunk
      exact Option.some.inj h ▸ .received chunk room hprogress hchunk.1 hchunk.2
    | _ => simp only [hprogress, reduceCtorEq] at h
  | closed =>
    cases hprogress : s.progress with
    | receiving room =>
      simp only [hprogress] at h
      exact Option.some.inj h ▸ .ended .closed .connectionDisconnected room hprogress nofun
    | _ => simp only [hprogress, reduceCtorEq] at h
  | broken status =>
    cases hprogress : s.progress with
    | receiving room =>
      simp only [hprogress] at h
      exact Option.some.inj h ▸ .ended (.broken status) status room hprogress nofun
    | _ => simp only [hprogress, reduceCtorEq] at h
  | sentFinished result =>
    dsimp only at h
    split_ifs at h with hprogress
    exact Option.some.inj h ▸ .sentFinished result hprogress

/-- What a step receives. -/
def Act.chunk : Act → List UInt8
  | .received chunk => chunk
  | _ => []

/-- What has been received stays received. -/
theorem next_wire (h : next P pin size s act = some s') : s'.wire = s.wire ++ act.chunk := by
  cases next_stepped h with
  | sentHello result _ => exact (List.append_nil _).symm
  | issue k _ => exact issue_wire.trans (List.append_nil _).symm
  | received chunk _ _ _ _ => rfl
  | ended act status room _ hdenied =>
    cases act with
    | received chunk => exact absurd (.received chunk) hdenied
    | _ => exact (List.append_nil _).symm
  | sentFinished result _ => exact (List.append_nil _).symm

theorem run_wire (h : run (next P pin size) s acts = some s') : s'.wire = s.wire ++ (acts.map Act.chunk).flatten := by
  induction acts generalizing s with
  | nil => exact Option.some.inj h ▸ (List.append_nil _).symm
  | cons act acts ih =>
    obtain ⟨s₁, hnext, hrest⟩ := Option.bind_eq_some_iff.1 h
    rw [ih hrest, next_wire hnext, List.map_cons, List.flatten_cons, List.append_assoc]

theorem next_extends (h : next P pin size s act = some s') : s.wire <+: s'.wire := ⟨_, (next_wire h).symm⟩

theorem run_extends (h : run (next P pin size) s acts = some s') : s.wire <+: s'.wire := ⟨_, (run_wire h).symm⟩

/-! ### One step -/

/-- The Finished has come, and nothing is denied: the outcome is what the messages lead to. -/
theorem finish_outcome (hk : k.Granted) (c : Context) : (s.finish P k c).outcome = concluded P c := by
  unfold State.finish concluded
  cases deriveApplicationKeys P c with
  | fault => rfl
  | error status => rfl
  | ok derived =>
    dsimp only
    cases sealClientFinished P c derived.1 derived.2 with
    | error status => rfl
    | ok record =>
      rw [hk.sent]
      rfl

theorem finish_found (hk : k.Granted) (c : Context) : (s.finish P k c).progress.found ≠ some false := by
  unfold State.finish
  cases deriveApplicationKeys P c with
  | fault => exact nofun
  | error status => exact nofun
  | ok derived =>
    dsimp only
    cases sealClientFinished P c derived.1 derived.2 with
    | error status => exact nofun
    | ok record =>
      rw [hk.sent]
      exact nofun

/-- The record at the front is the next one that is sent. -/
theorem Course.next_record (h : Course P pin size start hello ms records s) (hwhole : ∀ r ∈ records, IsRecord r) {left : List (List UInt8)}
    (hleft : records = s.taken ++ left) (hwire : s.wire <+: records.flatten) (hfull : 5 + s.acc.declared ≤ s.acc.buffered) :
    ∃ rest, left = s.acc.record :: rest := by
  obtain ⟨x, hx⟩ := hwire
  have hrecord := h.stream.fits.isRecord_record hfull
  have hflat : [s.acc.record].flatten ++ (s.acc.consume.pending ++ x) = left.flatten := by
    rw [h.stream.wire, hleft, List.flatten_append, List.append_assoc, List.append_cancel_left_eq] at hx
    rw [← hx, h.stream.fits.pending_consume hfull, List.flatten_singleton, List.append_assoc]
  obtain ⟨rest, hrest, _⟩ := Framing.prefix_of_flatten (List.forall_mem_singleton.2 hrecord)
    (fun r hr => hwhole r (hleft ▸ List.mem_append_right _ hr)) hflat
  exact ⟨rest, hrest⟩

/-- No record that is sent is too long, so none is refused for what its header declares. -/
theorem Course.declared_le (h : Course P pin size start hello ms records s) (hwhole : ∀ r ∈ records, IsRecord r ∧ r.length ≤ recordMax)
    {left : List (List UInt8)} (hleft : records = s.taken ++ left) (hwire : s.wire <+: records.flatten) (h5 : 5 ≤ s.acc.buffered) :
    s.acc.declared ≤ ciphertextMax := by
  obtain ⟨x, hx⟩ := hwire
  rw [h.stream.wire, hleft, List.flatten_append, List.append_assoc, List.append_cancel_left_eq] at hx
  have hpending := h.stream.fits.length_pending
  cases left with
  | nil =>
    have hempty := congrArg List.length hx
    rw [List.length_append, List.flatten_nil, List.length_nil] at hempty
    omega
  | cons r left =>
    obtain ⟨hrecord, hmax⟩ := hwhole r (hleft ▸ List.mem_append_right _ List.mem_cons_self)
    have hlength := isRecord_iff.1 hrecord
    have hdeclared := declaredLength_append (l := s.acc.pending) (by omega) x
    rw [hx, List.flatten_cons, declaredLength_append hlength.1, ← h.stream.fits.declared_eq h5] at hdeclared
    unfold recordMax at hmax
    omega

theorem Course.deliver {left : List (List UInt8)} {record : List UInt8} (hk : k.Granted) (hstream : Stream size s.acc s.wire s.taken)
    (hleft : records = s.taken ++ left) (hleads : Leads P pin start hello ms left (onReceiveRecordPayload P pin s.ctx record)) :
    Course P pin size start hello ms records (s.deliver P pin k record) := by
  unfold State.deliver
  cases hreceived : onReceiveRecordPayload P pin s.ctx record with
  | fault =>
    rw [hreceived] at hleads
    cases hleads with
    | fault h => exact ⟨hstream, nofun, nofun, fun _ => h.symm⟩
  | error refusal =>
    rw [hreceived] at hleads
    cases hleads with
    | refused _ h => exact ⟨hstream, nofun, nofun, fun _ => h.symm⟩
  | ok r =>
    obtain ⟨c, done⟩ := r
    rw [hreceived] at hleads
    cases hleads with
    | going _ h => exact ⟨hstream, nofun, fun _ => ⟨left, hleft, h⟩, fun hfound => absurd rfl hfound⟩
    | finished _ h =>
      have hover : (s.finish P k c).progress.found ≠ some false := finish_found hk c
      refine ⟨?_, fun room hroom => absurd (congrArg Progress.found hroom) hover, fun hfound => absurd hfound hover, fun _ => ?_⟩
      · obtain ⟨hacc, hwire, htaken⟩ := @finish_received P k s c
        show Stream size (s.finish P k c).acc (s.finish P k c).wire (s.finish P k c).taken
        rw [hacc, hwire, htaken]
        exact hstream
      · exact (finish_outcome hk c).trans h.symm

/-- A step on the way, as long as nothing else arrives than what was sent. -/
theorem Course.issue (h : Course P pin size start hello ms records s) (hsent : Sent P start hello ms records)
    (hopening : start.Opening) (hissuing : s.progress = .issuing)
    (hk : k.Granted) (hwire : s.wire <+: records.flatten) : Course P pin size start hello ms records (s.issue P pin size k) := by
  obtain ⟨left, hleft, hat⟩ := h.going (congrArg Progress.found hissuing)
  unfold State.issue
  rw [hk.stack, hk.accumulator]
  dsimp only
  rw [if_neg (by decide), if_neg (fun hlong => absurd (h.declared_le hsent.whole hleft hwire hlong.1) (Nat.not_le.2 hlong.2))]
  split_ifs with hfull
  · obtain ⟨rest, rfl⟩ := h.next_record (fun r hr => (hsent.whole r hr).1) hleft hwire hfull.2
    have hlength : s.acc.record.length ≤ recordMax := (hsent.whole _ (hleft ▸ List.mem_append_right _ List.mem_cons_self)).2
    refine Course.deliver (s := s.take) hk (h.stream.consume hfull.2) ?_ (hat.received hopening hsent.messages hsent.fits hlength)
    rw [hleft]
    exact List.append_cons _ _ _
  · have hshort : Short s.acc.pending := h.stream.fits.short (by omega)
    have hbuffered : s.acc.buffered < recordMax := by
      have hle := fun h5 => h.declared_le hsent.whole hleft hwire h5
      unfold recordMax
      by_cases h5 : 5 ≤ s.acc.buffered
      · have := hle h5
        omega
      · omega
    unfold State.post
    rw [hk.posted]
    refine ⟨h.stream.settle, fun room hroom => ?_, fun _ => ⟨left, hleft, hat⟩, fun hfound => absurd rfl hfound⟩
    refine ⟨(Progress.receiving.inj hroom).symm, Progress.receiving.inj hroom ▸ (h.stream.fits.room_settle hbuffered).2, ?_⟩
    show Short (s.acc.settle size).pending
    rw [h.stream.fits.pending_settle]
    exact hshort

theorem Course.next (h : Course P pin size start hello ms records s) (hsent : Sent P start hello ms records)
    (hopening : start.Opening) (hact : act.Granted)
    (hnext : Handshake.next P pin size s act = some s') (hwire : s.wire <+: records.flatten) : Course P pin size start hello ms records s' := by
  cases next_stepped hnext with
  | sentHello result hprogress =>
    cases hact
    exact ⟨h.stream, nofun, fun _ => h.going (congrArg Progress.found hprogress), fun hfound => absurd rfl hfound⟩
  | issue k hprogress =>
    cases hact with
    | issue hk => exact h.issue hsent hopening hprogress hk hwire
  | received chunk room hprogress hpos hle =>
    exact ⟨h.stream.arrive ((h.room room hprogress).1 ▸ hle), nofun, fun _ => h.going (congrArg Progress.found hprogress), fun hfound => absurd rfl hfound⟩
  | ended act status room hprogress hdenied => exact absurd hact hdenied
  | sentFinished result hprogress =>
    cases hact
    refine ⟨h.stream, nofun, nofun, fun _ => Eq.trans ?_ (h.ended (by rw [hprogress]; decide))⟩
    simp only [State.outcome, hprogress]
    rfl

theorem Course.run (h : Course P pin size start hello ms records s) (hsent : Sent P start hello ms records)
    (hopening : start.Opening) (hacts : ∀ act ∈ acts, act.Granted)
    (hrun : Lib.run (Handshake.next P pin size) s acts = some s') (hwire : s'.wire <+: records.flatten) :
    Course P pin size start hello ms records s' := by
  induction acts generalizing s with
  | nil => exact Option.some.inj hrun ▸ h
  | cons act acts ih =>
    obtain ⟨s₁, hnext, hrest⟩ := Option.bind_eq_some_iff.1 hrun
    have hbefore : s.wire <+: records.flatten := ((next_extends hnext).trans (run_extends hrest)).trans hwire
    exact ih (h.next hsent hopening (hacts act List.mem_cons_self) hnext hbefore) (fun act hact => hacts act (List.mem_cons_of_mem _ hact)) hrest

/-- Once nothing more is going to happen, it has come to what the messages come to. -/
theorem Course.settled (h : Course P pin size start hello ms records s) (hsent : Sent P start hello ms records) (hsettled : s.Settled records.flatten) :
    s.outcome = oneByOne P pin start hello ms := by
  unfold State.Settled at hsettled
  cases hprogress : s.progress with
  | receiving room =>
    rw [hprogress] at hsettled
    obtain ⟨left, hleft, hat⟩ := h.going (congrArg Progress.found hprogress)
    have hpending : s.acc.pending = left.flatten := by
      have hwire := h.stream.wire
      rw [hsettled, hleft, List.flatten_append, List.append_cancel_left_eq] at hwire
      exact hwire.symm
    have hshort := (h.room room hprogress).2.2
    cases left with
    | cons r left =>
      rw [hpending, List.flatten_cons] at hshort
      exact (hshort.not_append (hsent.whole r (hleft ▸ List.mem_append_right _ List.mem_cons_self)).1).elim
    | nil =>
      unfold State.outcome
      rw [hprogress]
      generalize s.ctx = c at hat
      cases hat with
      | @flight greeted c before after _ begun flight hgreeted hms hprocessed seq contents hcarries hafter hbegun =>
        cases hcarries
        rw [List.append_nil] at hafter
        cases after with
        | cons m after =>
          have hm : IsMessage m := hsent.messages m (hms ▸ List.mem_append_right _ List.mem_cons_self)
          rw [hafter, List.flatten_cons, hm.cut_append] at hbegun
          exact nomatch hbegun
        | nil =>
          rw [oneByOne_of_greeted hgreeted, hms, List.append_nil, hprocessed]
          rfl
  | complete => exact h.ended (by rw [hprogress]; decide)
  | failed status => exact h.ended (by rw [hprogress]; nofun)
  | fault => exact h.ended (by rw [hprogress]; nofun)
  | sendingHello => simp only [hprogress] at hsettled
  | issuing => simp only [hprogress] at hsettled
  | sendingFinished => simp only [hprogress] at hsettled

/-! ### How many steps -/

/-- How many steps there can still be: a byte that comes is looked for, received and taken off. -/
def State.ahead (total : ℕ) (s : State) : ℕ :=
  3 * (total - s.wire.length) + s.acc.pending.length +
    match s.progress with
    | .sendingHello => 3
    | .issuing => 2
    | .receiving _ | .sendingFinished => 1
    | .complete | .failed _ | .fault => 0

theorem finish_ahead (hk : k.Granted) (c : Context) {total : ℕ} : (s.finish P k c).ahead total ≤ 3 * (total - s.wire.length) + s.acc.pending.length + 1 := by
  obtain ⟨hacc, hwire, _⟩ := @finish_received P k s c
  have hfound := finish_found (P := P) (s := s) hk c
  unfold State.ahead
  rw [hacc, hwire]
  cases hprogress : (s.finish P k c).progress with
  | sendingHello => exact absurd (congrArg Progress.found hprogress) hfound
  | issuing => exact absurd (congrArg Progress.found hprogress) hfound
  | receiving room => exact absurd (congrArg Progress.found hprogress) hfound
  | _ => dsimp only; omega

theorem deliver_ahead (hk : k.Granted) {record : List UInt8} {total : ℕ} :
    (s.deliver P pin k record).ahead total ≤ 3 * (total - s.wire.length) + s.acc.pending.length + 2 := by
  unfold State.deliver
  cases onReceiveRecordPayload P pin s.ctx record with
  | fault => exact Nat.le_add_right _ 2
  | error refusal => exact Nat.le_add_right _ 2
  | ok r =>
    obtain ⟨c, done⟩ := r
    cases done with
    | false => exact Nat.le_refl _
    | true => exact Nat.le_succ_of_le (finish_ahead hk c)

/-- A step brings the end closer. -/
theorem Course.ahead_lt (h : Course P pin size start hello ms records s) (hact : act.Granted) (hnext : Handshake.next P pin size s act = some s')
    (hwire : s'.wire <+: records.flatten) : s'.ahead records.flatten.length < s.ahead records.flatten.length := by
  have hle := hwire.length_le
  cases next_stepped hnext with
  | sentHello result hprogress =>
    cases hact
    simp only [State.ahead, hprogress, afterSend]
    omega
  | issue k hprogress =>
    cases hact with
    | issue hk =>
      have hbefore : s.ahead records.flatten.length = 3 * (records.flatten.length - s.wire.length) + s.acc.pending.length + 2 := by
        simp only [State.ahead, hprogress]
      rw [hbefore]
      unfold State.issue
      rw [hk.stack, hk.accumulator]
      dsimp only
      rw [if_neg (by decide)]
      split_ifs with hlong hfull
      · simp only [State.ahead]
        omega
      · have hpending := congrArg List.length (h.stream.fits.pending_consume hfull.2)
        have htaken : 0 < s.acc.record.length := (h.stream.fits.isRecord_record hfull.2).length_pos
        have hdeliver : (s.take.deliver P pin k s.acc.record).ahead records.flatten.length ≤
            3 * (records.flatten.length - s.wire.length) + s.acc.consume.pending.length + 2 := deliver_ahead hk
        rw [List.length_append] at hpending
        omega
      · unfold State.post
        rw [hk.posted]
        simp only [State.ahead, h.stream.fits.pending_settle]
        omega
  | received chunk room hprogress hpos hroom =>
    have hchunk : chunk.length ≤ s.acc.room size := (h.room room hprogress).1 ▸ hroom
    simp only [State.ahead, hprogress, h.stream.fits.pending_arrive hchunk, List.length_append] at hle ⊢
    omega
  | ended act status room hprogress hdenied => exact absurd hact hdenied
  | sentFinished result hprogress =>
    cases hact
    simp only [State.ahead, hprogress, afterSend]
    omega

/-- As long as not everything has come there is something to do. -/
theorem Course.not_stuck (h : Course P pin size start hello ms records s) (hwire : s.wire <+: records.flatten) (hsettled : ¬ s.Settled records.flatten) :
    ∃ act s', act.Granted ∧ Handshake.next P pin size s act = some s' ∧ s'.wire <+: records.flatten := by
  cases hprogress : s.progress with
  | sendingHello => exact ⟨_, _, .sentHello, if_pos hprogress, hwire⟩
  | issuing => exact ⟨.issue ⟨true, none, none, none⟩, _, .issue ⟨rfl, rfl, rfl, rfl⟩, if_pos hprogress, issue_wire.symm ▸ hwire⟩
  | receiving room =>
    obtain ⟨rest, hrest⟩ := hwire
    cases rest with
    | nil =>
      refine absurd ?_ hsettled
      simp only [State.Settled, hprogress]
      rw [← hrest, List.append_nil]
    | cons b rest =>
      refine ⟨.received [b], { s with acc := s.acc.arrive [b], wire := s.wire ++ [b], progress := .issuing }, .received [b], ?_, ?_⟩
      · simp only [Handshake.next, hprogress]
        exact if_pos ⟨Nat.one_pos, (h.room room hprogress).2.1⟩
      · exact ⟨rest, by rw [← hrest, List.append_assoc, List.singleton_append]⟩
  | sendingFinished => exact ⟨_, _, .sentFinished, if_pos hprogress, hwire⟩
  | complete => exact absurd (by simp only [State.Settled, hprogress]) hsettled
  | failed status => exact absurd (by simp only [State.Settled, hprogress]) hsettled
  | fault => exact absurd (by simp only [State.Settled, hprogress]) hsettled

theorem Course.run_ahead (h : Course P pin size start hello ms records s) (hsent : Sent P start hello ms records) (hopening : start.Opening)
    (hacts : ∀ act ∈ acts, act.Granted) (hrun : Lib.run (Handshake.next P pin size) s acts = some s') (hwire : s'.wire <+: records.flatten) :
    acts.length + s'.ahead records.flatten.length ≤ s.ahead records.flatten.length := by
  induction acts generalizing s with
  | nil =>
    obtain rfl := Option.some.inj hrun
    exact (Nat.zero_add _).le
  | cons act acts ih =>
    obtain ⟨s₁, hnext, hrest⟩ := Option.bind_eq_some_iff.1 hrun
    have hafter : s₁.wire <+: records.flatten := (run_extends hrest).trans hwire
    have hact := hacts act List.mem_cons_self
    have hlt := h.ahead_lt hact hnext hafter
    have hle := ih (h.next hsent hopening hact hnext ((next_extends hnext).trans hafter)) (fun act hact => hacts act (List.mem_cons_of_mem _ hact)) hrest
    rw [List.length_cons]
    omega

/-- From anywhere on the way it is brought to an end. -/
theorem Course.settles (h : Course P pin size start hello ms records s) (hsent : Sent P start hello ms records) (hopening : start.Opening)
    (hwire : s.wire <+: records.flatten) : ∃ acts s', (∀ act ∈ acts, act.Granted) ∧ Lib.run (Handshake.next P pin size) s acts = some s' ∧
      s'.wire <+: records.flatten ∧ s'.Settled records.flatten := by
  -- every step brings the end closer
  induction hn : s.ahead records.flatten.length using Nat.strong_induction_on generalizing s with
  | _ n ih =>
    subst hn
    by_cases hsettled : s.Settled records.flatten
    · exact ⟨[], s, nofun, rfl, hwire, hsettled⟩
    · obtain ⟨act, s₁, hact, hnext, hwire₁⟩ := h.not_stuck hwire hsettled
      obtain ⟨acts, s', hacts, hrun, hend⟩ := ih _ (h.ahead_lt hact hnext hwire₁) (h.next hsent hopening hact hnext hwire) hwire₁ rfl
      refine ⟨act :: acts, s', List.forall_mem_cons.2 ⟨hact, hacts⟩, ?_, hend⟩
      rw [Lib.run, hnext]
      exact hrun

theorem Sent.begins {clientPrivate clientPublic clientHello : List UInt8} (h : Sent P (.fresh clientPrivate clientPublic clientHello) hello ms records)
    (buffer : ℕ → UInt8) : Course P pin size (.fresh clientPrivate clientPublic clientHello) hello ms records
      (.start clientPrivate clientPublic clientHello buffer) := by
  obtain ⟨first, rest, hrecords, htype, hpayload, hcarries⟩ := h.split
  refine ⟨⟨⟨Nat.le_refl 0, Nat.zero_le _⟩, rfl, nofun⟩, nofun, fun _ => ⟨records, rfl, ?_⟩, fun hfound => absurd rfl hfound⟩
  rw [hrecords]
  exact .hello htype hpayload hcarries

end Runs

/-! ### However it is cut -/

section Cut

variable (P : Primitives) (pin : Option Digest) (size : SystemSize) (clientPrivate clientPublic clientHello hello : List UInt8)
  (ms records : List (List UInt8)) (buffer : ℕ → UInt8) (acts : List Act) (s : State)

/-- However a server cuts its messages into records and however the records come, a handshake comes
to what the messages one by one would have brought it to. -/
theorem outcome_of_records (hsent : Sent P (.fresh clientPrivate clientPublic clientHello) hello ms records)
    (hrun : run (next P pin size) (.start clientPrivate clientPublic clientHello buffer) acts = some s) (hacts : ∀ act ∈ acts, act.Granted)
    (hwire : s.wire <+: records.flatten) (hsettled : s.Settled records.flatten) :
    s.outcome = oneByOne P pin (.fresh clientPrivate clientPublic clientHello) hello ms :=
  ((hsent.begins buffer).run hsent (fresh_opening _ _ _) hacts hrun hwire).settled hsent hsettled

/-- It does come to that, in a number of steps that the bytes sent bound. -/
theorem records_settle (hsent : Sent P (.fresh clientPrivate clientPublic clientHello) hello ms records)
    (hrun : run (next P pin size) (.start clientPrivate clientPublic clientHello buffer) acts = some s) (hacts : ∀ act ∈ acts, act.Granted)
    (hwire : s.wire <+: records.flatten) :
    acts.length ≤ 3 * records.flatten.length + 3 ∧ ∃ more s', (∀ act ∈ more, act.Granted) ∧ run (next P pin size) s more = some s' ∧
      s'.wire <+: records.flatten ∧ s'.Settled records.flatten ∧ s'.outcome = oneByOne P pin (.fresh clientPrivate clientPublic clientHello) hello ms := by
  have hopening := fresh_opening clientPrivate clientPublic clientHello
  have hcourse := (hsent.begins buffer).run hsent hopening hacts hrun hwire
  obtain ⟨more, s', hmore, hrest, hwire', hsettled⟩ := hcourse.settles hsent hopening hwire
  refine ⟨?_, more, s', hmore, hrest, hwire', hsettled, (hcourse.run hsent hopening hmore hrest hwire').settled hsent hsettled⟩
  exact Nat.le_trans (Nat.le_add_right _ _) ((hsent.begins buffer).run_ahead hsent hopening hacts hrun hwire)

end Cut

namespace Sample

/-- The records of the handshake whose flight has a record of its own. -/
def exactRecords : List (List UInt8) := [be 5 0x160303007b ++ serverHello, exact.pieces.flatten]

theorem hello_keys : (onReceiveServerHello platform (.fresh clientPrivate clientPublic clientHello) serverHello >>= fun c => .ok (c.serverHsKey, c.serverHsIv)) =
    .ok (serverHsKey.1.take keyLen, serverHsIv.1.take ivLen) := by decide +kernel

theorem exact_decrypts : (platform.aeadDecrypt (serverHsKey.1.take keyLen) (buildNonce (serverHsIv.1.take ivLen) 0) (exact.pieces.flatten.take 5)
    ((exact.pieces.flatten.drop 5).take ((exact.pieces.flatten.drop 5).length - tagLength))
    ((exact.pieces.flatten.drop 5).drop ((exact.pieces.flatten.drop 5).length - tagLength))).toOption.map Subtype.val = some (flight ++ [0x16]) := by
  decide +kernel

theorem exact_seals : Seals platform (serverHsKey.1.take keyLen) (serverHsIv.1.take ivLen) 0 exact.pieces.flatten flight := by
  refine ⟨by decide +kernel, by decide +kernel, ?_⟩
  obtain ⟨plaintext, hplaintext, hflight⟩ := Option.map_eq_some_iff.1 exact_decrypts
  refine ⟨plaintext, 0, ?_, hflight⟩
  cases hdecrypt : platform.aeadDecrypt (serverHsKey.1.take keyLen) (buildNonce (serverHsIv.1.take ivLen) 0) (exact.pieces.flatten.take 5)
    ((exact.pieces.flatten.drop 5).take ((exact.pieces.flatten.drop 5).length - tagLength))
    ((exact.pieces.flatten.drop 5).drop ((exact.pieces.flatten.drop 5).length - tagLength)) with
  | error status =>
    rw [hdecrypt] at hplaintext
    exact nomatch hplaintext
  | ok p =>
    rw [hdecrypt] at hplaintext
    exact congrArg Except.ok (Option.some.inj hplaintext)

theorem exact_sent : Sent platform (.fresh clientPrivate clientPublic clientHello) serverHello [encryptedExtensions, certificate, certificateVerify, finished]
    exactRecords where
  whole := by
    have hall : ∀ r ∈ exactRecords, (5 ≤ r.length ∧ r.length = 5 + declaredLength r) ∧ r.length ≤ recordMax := by decide +kernel
    exact fun r hr => ⟨isRecord_iff.2 (hall r hr).1, (hall r hr).2⟩
  messages := by
    have hall : ∀ m ∈ [encryptedExtensions, certificate, certificateVerify, finished], 4 ≤ m.length ∧ m.length = 4 + bodyLength m := by decide +kernel
    exact fun m hm => isMessage_iff.2 (hall m hm)
  fits := by decide +kernel
  split := by
    refine ⟨_, _, rfl, by decide +kernel, by decide +kernel, fun c hc => ?_⟩
    have hkeys := hello_keys
    rw [hc, ok_bind] at hkeys
    obtain ⟨hkey, hiv⟩ := Prod.mk.inj (Checked.ok.inj hkeys)
    have hflight : [encryptedExtensions, certificate, certificateVerify, finished].flatten = flight ++ [] := by decide +kernel
    rw [hkey, hiv, hflight]
    exact .content exact_seals (.nil 1)

theorem granted_granted : granted.Granted := ⟨rfl, rfl, rfl, rfl⟩

theorem arrivals_granted (pieces : List (List UInt8)) : ∀ act ∈ arrivals pieces, act.Granted := by
  intro act hact
  obtain ⟨piece, _, hpiece⟩ := List.mem_flatMap.1 hact
  rcases List.mem_pair.1 hpiece with rfl | rfl
  · exact .received piece
  · exact .issue granted_granted

theorem arrivals_chunks (pieces : List (List UInt8)) : ((arrivals pieces).map Act.chunk).flatten = pieces.flatten := by
  induction pieces with
  | nil => rfl
  | cons piece pieces ih =>
    show piece ++ ([] ++ ((arrivals pieces).map Act.chunk).flatten) = _
    rw [ih]
    rfl

end Sample

/-- The handshake whose flight has a record of its own comes to what its messages one by one come to. -/
theorem outcome_of_records_exact : ∃ s, Sample.handshake Sample.exact = some s ∧ s.progress = .complete ∧
    s.outcome = oneByOne Sample.platform (some Sample.pin) (.fresh Sample.clientPrivate Sample.clientPublic Sample.clientHello) Sample.serverHello
      [Sample.encryptedExtensions, Sample.certificate, Sample.certificateVerify, Sample.finished] := by
  obtain ⟨s, hrun, hend⟩ := Option.map_eq_some_iff.1 Sample.exact_completes
  have hcomplete := (Prod.mk.inj hend).1
  refine ⟨s, hrun, hcomplete, outcome_of_records _ _ _ _ _ _ _ _ _ _ _ s Sample.exact_sent hrun ?_ ?_ ?_⟩
  · refine List.forall_mem_append.2 ⟨List.forall_mem_append.2 ⟨List.forall_mem_append.2 ⟨List.forall_mem_append.2 ⟨?_, ?_⟩, ?_⟩, ?_⟩, ?_⟩
    · exact List.forall_mem_cons.2 ⟨.sentHello, List.forall_mem_singleton.2 (.issue Sample.granted_granted)⟩
    · exact Sample.arrivals_granted _
    · exact List.forall_mem_singleton.2 (.issue Sample.granted_granted)
    · exact Sample.arrivals_granted _
    · exact List.forall_mem_singleton.2 .sentFinished
  · rw [run_wire hrun]
    simp only [List.map_append, List.flatten_append, Sample.arrivals_chunks]
    simp [Sample.exactRecords, Act.chunk, State.start]
  · simp only [State.Settled, hcomplete]

theorem records_settle_exact : ∃ more s', (∀ act ∈ more, act.Granted) ∧
    run (next Sample.platform (some Sample.pin) .small) (.start Sample.clientPrivate Sample.clientPublic Sample.clientHello fun _ => 0) more = some s' ∧
    s'.outcome = oneByOne Sample.platform (some Sample.pin) (.fresh Sample.clientPrivate Sample.clientPublic Sample.clientHello) Sample.serverHello
      [Sample.encryptedExtensions, Sample.certificate, Sample.certificateVerify, Sample.finished] := by
  obtain ⟨_, more, s', hmore, hrun, _, _, houtcome⟩ :=
    records_settle Sample.platform (some Sample.pin) .small _ _ _ _ _ _ (fun _ => 0) [] _ Sample.exact_sent rfl (by simp) List.nil_prefix
  exact ⟨more, s', hmore, hrun, houtcome⟩

/-! ### Behind the Finished -/

/-- What the encrypted ones of some records held, the first of them the ServerHello's. -/
def heldBy (P : Primitives) (s : State) (rs : List (List UInt8)) : List UInt8 :=
  ((recordContents P s.ctx.serverHsKey s.ctx.serverHsIv 0 rs.tail).filterMap id).flatten

/-- The records taken, and that the last of them is an encrypted one once the Finished has come. -/
structure Ending (P : Primitives) (c : Context) (taken : List (List UInt8)) (done : Bool) : Prop where
  following : Following P c taken done
  encrypted : done = true → ∃ earlier last, taken = earlier ++ [last] ∧ last.getD 0 0 = 0x17

section Ending

variable {P : Primitives} {pin : Option Digest} {size : SystemSize} {s : State}

theorem Ending.carried : Carried P pin (Ending P) := by
  refine ⟨fun h hreceived => ⟨h.following.received hreceived, fun hdone => ?_⟩⟩
  cases hreceived with
  | serverHello _ _ _ _ => exact absurd hdone Bool.false_ne_true
  | changeCipherSpec _ _ => exact absurd hdone Bool.false_ne_true
  | content _ _ _ _ htype _ _ => exact ⟨_, _, rfl, htype⟩

/-- The last record taken is the one that completes the Finished: whatever the peer sends, of what has
come behind it nothing is taken and nothing is lost. -/
theorem taken_up_to_finished (h : (handshaking P pin size).Reachable s) (hcomplete : s.progress = .complete) :
    s.wire = s.taken.flatten ++ s.acc.pending ∧ ∃ earlier last, s.taken = earlier ++ [last] ∧
      (∀ m ∈ messages (heldBy P s earlier), messageType m ≠ typeFinished) ∧ ∃ m ∈ messages (heldBy P s s.taken), messageType m = typeFinished := by
  have hinv : Inv P size (Ending P) s := Inv.reachable Ending.carried (fun _ _ _ => ⟨.waiting rfl rfl rfl rfl rfl, nofun⟩) h
  have hending := hinv.holds true (congrArg Progress.found hcomplete)
  obtain ⟨earlier, last, htaken, htype⟩ := hending.encrypted rfl
  have hfollowing := hending.following
  refine ⟨hinv.stream.wire, earlier, last, htaken, ?_⟩
  rw [htaken] at hfollowing ⊢
  generalize hall : earlier ++ [last] = all at hfollowing
  cases hfollowing with
  | inFlight hello rs ms _ hflight =>
    obtain ⟨before, finished, contents, content, rfl, hfinished, hbefore, hcontents, hlt⟩ := hflight.finished rfl
    obtain ⟨rs, rfl⟩ : ∃ rs', rs = rs' ++ [last] := by
      cases earlier with
      | nil =>
        obtain ⟨rfl, rfl⟩ := List.cons.inj hall
        have hnone := hflight.contents
        rw [hcontents] at hnone
        exact absurd hnone (by simp [recordContents])
      | cons _ earlier => exact ⟨earlier, (List.cons.inj hall).2.symm⟩
    have hall' : earlier ++ [last] = (hello :: rs) ++ [last] := hall
    obtain rfl : earlier = hello :: rs := List.append_cancel_right hall'
    have hheld := hflight.contents
    rw [recordContents_concat, if_pos htype, hcontents, List.map_append, List.map_singleton] at hheld
    have hearlier := (List.append_inj' hheld rfl).1
    have hfront : heldBy P s (hello :: rs) = contents.flatten := by
      unfold heldBy
      rw [List.tail_cons, ← hearlier, List.filterMap_map]
      exact congrArg List.flatten List.filterMap_some
    have hwhole : heldBy P s (hello :: (rs ++ [last])) = (before ++ [finished]).flatten ++ s.ctx.flight := by
      unfold heldBy
      rw [List.tail_cons, ← hflight.contents, List.filterMap_map, ← hflight.flight]
      exact congrArg List.flatten List.filterMap_some
    have hsplit : contents.flatten ++ content = (before ++ [finished]).flatten ++ s.ctx.flight := by
      rw [← hflight.flight, hcontents, List.flatten_append, List.flatten_singleton]
    obtain ⟨x, hx⟩ := List.prefix_of_prefix_length_le (List.prefix_append _ content) (hsplit ▸ List.prefix_append _ _) (Nat.le_of_lt hlt)
    have hne : x ≠ [] := by
      rintro rfl
      rw [List.append_nil] at hx
      exact absurd (congrArg List.length hx) (Nat.ne_of_lt hlt)
    constructor
    · rw [hfront]
      exact fun m hm => hbefore m ((Framing.items_of_lt hflight.whole hx hne).subset hm)
    · rw [hwhole]
      refine ⟨finished, ?_, hfinished⟩
      rw [messages, Framing.items_flatten hflight.whole]
      exact List.mem_append_left _ (List.mem_append_right _ List.mem_cons_self)

end Ending

theorem taken_up_to_finished_exact : ∃ s, Sample.handshake Sample.exact = some s ∧ s.wire = s.taken.flatten ++ s.acc.pending ∧
    ∃ m ∈ messages (heldBy Sample.platform s s.taken), messageType m = typeFinished := by
  obtain ⟨s, hrun, hend⟩ := Option.map_eq_some_iff.1 Sample.exact_completes
  obtain ⟨hwire, _, _, _, _, hfinished⟩ := taken_up_to_finished (Sample.handshake_reachable hrun) (Prod.mk.inj hend).1
  exact ⟨s, hrun, hwire, hfinished⟩

end BlorgFS.Tls.Handshake
