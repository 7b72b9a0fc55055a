import BlorgFS.Tls.HandshakeRuns

/-! Whether the handshake's key changes fall on record boundaries. The ServerHello is all of its
record. The Finished need not be: what stands behind it in its record is left in the flight buffer,
which nobody looks at any more. -/

namespace BlorgFS.Tls.Handshake

open Lib Checked

/-! ### What the records held -/

/-- The content of an encrypted record, given the keys and its number. -/
def recordContent (P : Primitives) (key iv : List UInt8) (seq : ℕ) (record : List UInt8) : Option (List UInt8) :=
  let payload := record.drop 5
  let ciphertextLen := payload.length - tagLength
  match P.aeadDecrypt key (buildNonce iv seq) (record.take 5) (payload.take ciphertextLen) (payload.drop ciphertextLen) with
  | .error _ => none
  | .ok plaintext => (stripInnerPlaintext plaintext.1).map fun inner => plaintext.1.take inner.2

/-- The contents of the encrypted ones of some records, numbered from `seq` on. -/
def recordContents (P : Primitives) (key iv : List UInt8) : ℕ → List (List UInt8) → List (Option (List UInt8))
  | _, [] => []
  | seq, r :: rs =>
    if r.getD 0 0 = 0x17 then recordContent P key iv seq r :: recordContents P key iv (seq + 1) rs else recordContents P key iv seq rs

/-- Messages up to the first Finished. -/
def upToFinished : List (List UInt8) → List (List UInt8)
  | [] => []
  | m :: ms => if messageType m = typeFinished then [m] else m :: upToFinished ms

/-- What stands behind the first Finished when a flight is cut into messages. -/
def behindFinished (flight : List UInt8) : List UInt8 := flight.drop (upToFinished (messages flight)).flatten.length

/-- A position is the end of the content that holds the byte in front of it. -/
def EndsContent (contents : List (List UInt8)) (n : ℕ) : Prop :=
  ∃ before content after, contents = before ++ content :: after ∧ before.flatten.length < n ∧ n = before.flatten.length + content.length

section Contents

variable {P : Primitives} {key iv : List UInt8} {seq : ℕ} {c : Context}

theorem recordContents_concat (rs : List (List UInt8)) (r : List UInt8) :
    recordContents P key iv seq (rs ++ [r]) =
      recordContents P key iv seq rs ++ if r.getD 0 0 = 0x17 then [recordContent P key iv (seq + (recordContents P key iv seq rs).length) r] else [] := by
  induction rs generalizing seq with
  | nil => rfl
  | cons first rs ih =>
    rw [List.cons_append, recordContents, recordContents]
    split_ifs with hfirst hlast hlast
    · rw [ih, if_pos hlast, List.cons_append, List.length_cons, Nat.add_assoc, Nat.add_comm 1]
    · rw [ih, if_neg hlast, List.cons_append]
    · rw [ih, if_pos hlast]
    · rw [ih, if_neg hlast]

theorem recordContent_of_open {record content : List UInt8} (h : openRecord P c (record.take 5) (record.drop 5) = .ok content) :
    recordContent P c.serverHsKey c.serverHsIv c.serverSeq record = some content := by
  unfold openRecord at h
  dsimp only at h
  split_ifs at h
  obtain ⟨plaintext, hdecrypt, h⟩ := bind_eq_ok.1 h
  unfold recordContent
  dsimp only
  rw [ofExcept_eq_ok.1 hdecrypt]
  dsimp only
  cases hstrip : stripInnerPlaintext plaintext.1 with
  | none => rw [hstrip] at h; exact nomatch h
  | some inner =>
    rw [hstrip] at h
    dsimp only at h
    split_ifs at h
    exact congrArg some (Checked.ok.inj h)

end Contents

theorem upToFinished_of_last {before : List (List UInt8)} {last : List UInt8} (hbefore : ∀ m ∈ before, messageType m ≠ typeFinished)
    (hlast : messageType last = typeFinished) (rest : List (List UInt8)) : upToFinished (before ++ last :: rest) = before ++ [last] := by
  induction before with
  | nil => exact if_pos hlast
  | cons m before ih =>
    rw [List.cons_append, upToFinished, if_neg (hbefore m List.mem_cons_self), ih fun m hm => hbefore m (List.mem_cons_of_mem _ hm), List.cons_append]

/-- What is left over is what stands behind the Finished. -/
theorem behindFinished_eq {before : List (List UInt8)} {last : List UInt8} (hwhole : ∀ m ∈ before ++ [last], IsMessage m)
    (hbefore : ∀ m ∈ before, messageType m ≠ typeFinished) (hlast : messageType last = typeFinished) (rest : List UInt8) :
    behindFinished ((before ++ [last]).flatten ++ rest) = rest := by
  have hmessages : messages ((before ++ [last]).flatten ++ rest) = before ++ last :: messages rest := by
    refine (Framing.items_flatten hwhole rest).trans ?_
    rw [List.append_assoc, List.singleton_append]
  unfold behindFinished
  rw [hmessages, upToFinished_of_last hbefore hlast, List.drop_left']
  rfl

/-- A position behind all but the last content, and not behind that, ends a content only if it is
the end of all. -/
theorem endsContent_iff {earlier : List (List UInt8)} {content : List UInt8} {n : ℕ} (hlt : earlier.flatten.length < n)
    (hle : n ≤ (earlier ++ [content]).flatten.length) : EndsContent (earlier ++ [content]) n ↔ n = (earlier ++ [content]).flatten.length := by
  have htotal : (earlier ++ [content]).flatten.length = earlier.flatten.length + content.length := by
    rw [List.flatten_append, List.length_append, List.flatten_singleton]
  constructor
  · rintro ⟨before, held, after, hsplit, _, hend⟩
    rcases List.eq_nil_or_concat after with rfl | ⟨after, final, rfl⟩
    · obtain ⟨rfl, hheld⟩ := List.append_inj' hsplit rfl
      obtain rfl := List.singleton_injective hheld
      rw [htotal, hend]
    · have hsplit : earlier ++ [content] = (before ++ held :: after) ++ [final] := by
        rw [hsplit, List.concat_eq_append, List.append_assoc, List.cons_append]
      obtain ⟨rfl, _⟩ := List.append_inj' hsplit rfl
      rw [List.flatten_append, List.length_append, List.flatten_cons, List.length_append] at hlt
      omega
  · intro hend
    exact ⟨earlier, content, [], rfl, hlt, hend.trans htotal⟩

/-! ### One record after another -/

/-- The handshake past its ServerHello: the contents received are the messages dispatched and what
is left in the flight buffer. -/
structure InFlight (P : Primitives) (c : Context) (done : Bool) (hello : List UInt8) (rs ms : List (List UInt8)) : Prop where
  stage : c.stage = .waitingForFlightRecord
  isMessage : IsMessage (hello.drop 5)
  dispatched : c.dispatched = hello.drop 5 :: ms
  contents : c.contents.map some = recordContents P c.serverHsKey c.serverHsIv 0 rs
  serverSeq : c.serverSeq = c.contents.length
  flight : c.contents.flatten = ms.flatten ++ c.flight
  whole : ∀ m ∈ ms, IsMessage m
  going : done = false → messageFraming.cut c.flight = none ∧ ∀ m ∈ ms, messageType m ≠ typeFinished
  finished : done = true → ∃ before last earlier content, ms = before ++ [last] ∧ messageType last = typeFinished ∧
    (∀ m ∈ before, messageType m ≠ typeFinished) ∧ c.contents = earlier ++ [content] ∧ earlier.flatten.length < ms.flatten.length

/-- What has come of the records taken so far. -/
inductive Following (P : Primitives) (c : Context) : List (List UInt8) → Bool → Prop
  | waiting (hstage : c.stage = .waitingForServerHello) (hseq : c.serverSeq = 0) (hflight : c.flight = []) (hcontents : c.contents = [])
    (hdispatched : c.dispatched = []) : Following P c [] false
  | inFlight (hello : List UInt8) (rs ms : List (List UInt8)) (done : Bool) (h : InFlight P c done hello rs ms) : Following P c (hello :: rs) done

section Following

variable {P : Primitives} {pin : Option Digest} {c c' : Context} {done : Bool} {taken : List (List UInt8)} {record : List UInt8}

theorem cut_nil : messageFraming.cut ([] : List UInt8) = none := rfl

/-- The messages a content completes are not all in front of it. -/
theorem length_lt_of_drained {flight content rest : List UInt8} {new : List (List UInt8)} (hnone : messageFraming.cut flight = none)
    (hsplit : flight ++ content = new.flatten ++ rest) (hwhole : ∀ m ∈ new, IsMessage m) (hne : new ≠ []) : flight.length < new.flatten.length := by
  cases new with
  | nil => exact absurd rfl hne
  | cons m new =>
    have hm := hwhole m List.mem_cons_self
    rw [List.flatten_cons, List.length_append]
    by_contra hle
    have hfront : m <+: flight ++ content := by
      rw [hsplit, List.flatten_cons, List.append_assoc]
      exact List.prefix_append _ _
    obtain ⟨rest', rfl⟩ := List.prefix_of_prefix_length_le hfront (List.prefix_append _ _) (by omega)
    rw [hm.cut_append] at hnone
    exact nomatch hnone

theorem Following.received (h : Following P c taken false) (hreceived : Received P pin c record c' done) : Following P c' (taken ++ [record]) done := by
  cases hreceived with
  | serverHello _ hstage htype hgreeted =>
    cases h with
    | inFlight hello rs ms _ h => exact absurd (h.stage.symm.trans hstage) nofun
    | waiting _ hseq hflight hcontents hdispatched =>
      obtain ⟨key, hunkeyed⟩ := hgreeted.unkeyed
      have hcontents' : c'.contents = [] := (congrArg Context.contents hunkeyed).trans hcontents
      have hflight' : c'.flight = [] := (congrArg Context.flight hunkeyed).trans hflight
      refine .inFlight record [] [] false ⟨congrArg Context.stage hunkeyed, hgreeted.message, ?_, ?_, ?_, ?_, nofun, fun _ => ⟨?_, nofun⟩, nofun⟩
      · refine (congrArg Context.dispatched hunkeyed).trans ?_
        show c.dispatched ++ [record.drop 5] = [record.drop 5]
        rw [hdispatched, List.nil_append]
      · rw [hcontents']
        rfl
      · rw [hcontents']
        exact (congrArg Context.serverSeq hunkeyed).trans hseq
      · rw [hcontents', hflight']
        rfl
      · rw [hflight']
        exact cut_nil
  | changeCipherSpec hstage htype =>
    cases h with
    | waiting hwaiting _ _ _ _ => exact absurd (hwaiting.symm.trans hstage) nofun
    | inFlight hello rs ms _ h =>
      refine .inFlight hello (rs ++ [record]) ms false { h with contents := ?_ }
      have hplain : ¬ record.getD 0 0 = 0x17 := by
        rw [htype]
        decide
      rw [recordContents_concat, if_neg hplain, List.append_nil]
      exact h.contents
  | content content _ _ hstage htype hopen hprocess =>
    cases h with
    | waiting hwaiting _ _ _ _ => exact absurd (hwaiting.symm.trans hstage) nofun
    | inFlight hello rs ms _ h =>
      obtain ⟨turns, hprocess⟩ := hprocess
      obtain ⟨new, hdrained⟩ := processFlightMessages_drained hprocess
      obtain ⟨hnone, hothers⟩ := h.going rfl
      have hcore := hdrained.core
      have hcontents : c'.contents = c.contents ++ [content] := congrArg Context.contents hcore
      have hkey : c'.serverHsKey = c.serverHsKey := (congrArg Context.serverHsKey hcore :)
      have hiv : c'.serverHsIv = c.serverHsIv := (congrArg Context.serverHsIv hcore :)
      have hseq : c'.serverSeq = c.serverSeq + 1 := congrArg Context.serverSeq hcore
      have hflight : c.flight ++ content = new.flatten ++ c'.flight := hdrained.flight
      have hdispatched : c'.dispatched = c.dispatched ++ new := hdrained.dispatched
      refine .inFlight hello (rs ++ [record]) (ms ++ new) done
        ⟨(congrArg Context.stage hcore).trans hstage, h.isMessage, ?_, ?_, ?_, ?_, ?_, fun hgoing => ?_, fun hfinished => ?_⟩
      · rw [hdispatched, h.dispatched]
        rfl
      · have hlength : (recordContents P c.serverHsKey c.serverHsIv 0 rs).length = c.serverSeq := by rw [← h.contents, List.length_map, h.serverSeq]
        rw [hcontents, hkey, hiv, recordContents_concat, if_pos htype, hlength, Nat.zero_add, recordContent_of_open hopen, List.map_append, h.contents]
        rfl
      · rw [hseq, hcontents, h.serverSeq, List.length_append]
        rfl
      · rw [hcontents, List.flatten_append, List.flatten_singleton, h.flight, List.append_assoc, hflight, List.flatten_append, List.append_assoc]
      · exact List.forall_mem_append.2 ⟨h.whole, hdrained.whole⟩
      · obtain ⟨hrest, hnew⟩ := hdrained.going hgoing
        exact ⟨hrest, List.forall_mem_append.2 ⟨hothers, hnew⟩⟩
      · obtain ⟨before, last, hnew, hlast, hbefore⟩ := hdrained.finished hfinished
        have hlt := length_lt_of_drained hnone hflight hdrained.whole (by rw [hnew]; exact List.append_ne_nil_of_right_ne_nil _ (List.cons_ne_nil _ _))
        refine ⟨ms ++ before, last, c.contents, content, ?_, hlast, List.forall_mem_append.2 ⟨hothers, hbefore⟩, hcontents, ?_⟩
        · rw [hnew, List.append_assoc]
        · rw [h.flight, List.length_append, List.flatten_append, List.length_append]
          omega

theorem Following.carried : Carried P pin (Following P) := ⟨fun h hreceived => h.received hreceived⟩

theorem Following.reachable {size : SystemSize} {s : State} (h : (handshaking P pin size).Reachable s) : Inv P size (Following P) s :=
  Inv.reachable Following.carried (fun _ _ _ => .waiting rfl rfl rfl rfl rfl) h

end Following

/-! ### The key changes -/

/-- The ServerHello is all of the first record. -/
def HelloAligned (s : State) : Prop :=
  ∃ record rest messages, s.taken = record :: rest ∧ s.ctx.dispatched = record.drop 5 :: messages ∧ IsRecord record ∧ IsMessage (record.drop 5)

/-- The Finished ends with the content of the encrypted record that has its last byte. -/
def FinishedAligned (P : Primitives) (s : State) : Prop :=
  ∃ contents before last, contents.map some = recordContents P s.ctx.serverHsKey s.ctx.serverHsIv 0 s.taken.tail ∧
    s.ctx.dispatched.tail = before ++ [last] ∧ messageType last = typeFinished ∧ (before ++ [last]).flatten <+: contents.flatten ∧
    EndsContent contents (before ++ [last]).flatten.length

/-- What the encrypted records of the server held, one after another. -/
def serverFlight (P : Primitives) (s : State) : List UInt8 :=
  ((recordContents P s.ctx.serverHsKey s.ctx.serverHsIv 0 s.taken.tail).filterMap id).flatten

section Aligned

variable {P : Primitives} {pin : Option Digest} {size : SystemSize} {s : State}

theorem Inv.inFlight (h : Inv P size (Following P) s) (hcomplete : s.progress = .complete) :
    ∃ hello rs ms, s.taken = hello :: rs ∧ InFlight P s.ctx true hello rs ms := by
  have hfollowing := h.holds true (congrArg Progress.found hcomplete)
  generalize htaken : s.taken = taken at hfollowing
  cases hfollowing with
  | inFlight hello rs ms _ hflight => exact ⟨hello, rs, ms, rfl, hflight⟩

theorem helloAligned (h : Inv P size (Following P) s) (hcomplete : s.progress = .complete) : HelloAligned s := by
  obtain ⟨hello, rs, ms, htaken, hflight⟩ := h.inFlight hcomplete
  exact ⟨hello, rs, ms, htaken, hflight.dispatched, h.stream.records hello (htaken ▸ List.mem_cons_self), hflight.isMessage⟩

theorem Inv.recordContents_eq (h : Inv P size (Following P) s) (hcomplete : s.progress = .complete) :
    recordContents P s.ctx.serverHsKey s.ctx.serverHsIv 0 s.taken.tail = s.ctx.contents.map some := by
  obtain ⟨hello, rs, ms, htaken, hflight⟩ := h.inFlight hcomplete
  rw [htaken, hflight.contents]
  rfl

theorem Inv.serverFlight_eq (h : Inv P size (Following P) s) (hcomplete : s.progress = .complete) : serverFlight P s = s.ctx.contents.flatten := by
  unfold serverFlight
  rw [h.recordContents_eq hcomplete, List.filterMap_map]
  exact congrArg List.flatten (List.filterMap_some)

/-- What is left in the flight buffer is what stands behind the Finished. -/
theorem Inv.behindFinished_eq (h : Inv P size (Following P) s) (hcomplete : s.progress = .complete) : behindFinished (serverFlight P s) = s.ctx.flight := by
  obtain ⟨hello, rs, ms, htaken, hflight⟩ := h.inFlight hcomplete
  obtain ⟨before, last, earlier, content, rfl, hlast, hbefore, hcontents, hlt⟩ := hflight.finished rfl
  rw [h.serverFlight_eq hcomplete, hflight.flight]
  exact Handshake.behindFinished_eq hflight.whole hbefore hlast s.ctx.flight

/-- All of it is in the record that ends the Finished, so the Finished is at the end of a record
exactly when nothing is left. -/
theorem finishedAligned_iff (h : Inv P size (Following P) s) (hcomplete : s.progress = .complete) : FinishedAligned P s ↔ s.ctx.flight = [] := by
  obtain ⟨hello, rs, ms, htaken, hflight⟩ := h.inFlight hcomplete
  obtain ⟨before, last, earlier, content, rfl, hlast, hbefore, hcontents, hlt⟩ := hflight.finished rfl
  have hheld := h.recordContents_eq hcomplete
  have hlength : (earlier ++ [content]).flatten.length = (before ++ [last]).flatten.length + s.ctx.flight.length := by
    rw [← hcontents, hflight.flight, List.length_append]
  have hends : EndsContent s.ctx.contents (before ++ [last]).flatten.length ↔ s.ctx.flight = [] := by
    rw [hcontents, endsContent_iff hlt (by omega), ← List.length_eq_zero_iff]
    omega
  rw [← hends]
  constructor
  · rintro ⟨contents, before', last', hcontents', hdispatched, _, _, haligned⟩
    obtain rfl := List.map_injective_iff.2 (fun _ _ => Option.some.inj) (hcontents'.trans hheld)
    rw [hflight.dispatched] at hdispatched
    rw [show before ++ [last] = before' ++ [last'] from hdispatched]
    exact haligned
  · intro haligned
    exact ⟨s.ctx.contents, before, last, hheld.symm, congrArg List.tail hflight.dispatched, hlast, hflight.flight ▸ List.prefix_append _ _, haligned⟩

/-- When the handshake succeeds, both key changes fall on record boundaries exactly when nothing
stands behind the Finished in what the server sent encrypted. -/
theorem keyChanges_aligned_iff (h : (handshaking P pin size).Reachable s) (hcomplete : s.progress = .complete) :
    HelloAligned s ∧ FinishedAligned P s ↔ behindFinished (serverFlight P s) = [] := by
  have hinv := Following.reachable h
  rw [finishedAligned_iff hinv hcomplete, hinv.behindFinished_eq hcomplete]
  exact ⟨fun h => h.2, fun h => ⟨helloAligned hinv hcomplete, h⟩⟩

end Aligned

theorem Sample.handshake_reachable {r : Sample.Sealed} {s : State} (h : Sample.handshake r = some s) :
    (handshaking Sample.platform (some Sample.pin) .small).Reachable s := by
  have hstep : ∀ s act s', next Sample.platform (some Sample.pin) .small s act = some s' → (handshaking Sample.platform (some Sample.pin) .small).step s s' :=
    fun _ act _ hnext => ⟨act, hnext⟩
  exact System.Reachable.run hstep (.init ⟨_, _, _, _, rfl⟩) h

theorem exact_aligned : ∃ s, Sample.handshake Sample.exact = some s ∧ s.progress = .complete ∧ HelloAligned s ∧ FinishedAligned Sample.platform s := by
  obtain ⟨s, hs, hend⟩ := Option.map_eq_some_iff.1 Sample.exact_completes
  obtain ⟨hcomplete, hflight⟩ := Prod.mk.inj hend
  have hreachable := Sample.handshake_reachable hs
  have hnone := ((Following.reachable hreachable).behindFinished_eq hcomplete).trans hflight
  exact ⟨s, hs, hcomplete, (keyChanges_aligned_iff hreachable hcomplete).2 hnone⟩

/-- A byte behind the Finished, in its record, is never looked at. -/
theorem trailing_not_aligned : ∃ s, Sample.handshake Sample.trailing = some s ∧ s.progress = .complete ∧
    behindFinished (serverFlight Sample.platform s) = [0x04] ∧ ¬ (HelloAligned s ∧ FinishedAligned Sample.platform s) := by
  obtain ⟨s, hs, hend⟩ := Option.map_eq_some_iff.1 Sample.trailing_completes
  obtain ⟨hcomplete, hflight⟩ := Prod.mk.inj hend
  have hinv := Following.reachable (Sample.handshake_reachable hs)
  refine ⟨s, hs, hcomplete, (hinv.behindFinished_eq hcomplete).trans hflight, fun haligned => ?_⟩
  have hnone := (finishedAligned_iff hinv hcomplete).1 haligned.2
  exact List.cons_ne_nil _ _ (hflight.symm.trans hnone)

end BlorgFS.Tls.Handshake
