import BlorgFS.Http.CallEnds
import BlorgFS.Http.ClientSafety

/-! The client is never stuck, and no request goes on for ever: whatever the order of the steps, there are
only so many that the peer's bytes do not call for. -/

namespace BlorgFS.Http

open Lib Tls

namespace Client

variable {tls : Bool} {P : Handshake.Primitives} {pin : Option Digest} {parse : Bytes → Parsed} {size : SystemSize} {x x' : Client}

/-! ### Steps that are there -/

/-- Until a request is over there is a step for it to take, and until the prewarm has nothing out there is
one for it; and when neither has anything out there is one for the unload, until the client is torn down. -/
theorem never_stuck (hparse : ParsesInside parse) (h : (system parse P pin size tls).Reachable x) :
    (∀ (i : ℕ) c, x.calls[i]? = some c → c.phase ≠ .freed → ∃ act, (x.next parse P pin size tls (.call i act)).isSome = true) ∧
    (x.warming ≠ .idle → ∃ act, (x.next parse P pin size tls (.warm act)).isSome = true) ∧
    ((∀ c ∈ x.calls, c.phase = .freed) → x.warming = .idle → x.unload ≠ .cleaned →
      ∃ act ∈ [ClientAct.drain, .latch, .observe, .cleanup], (x.next parse P pin size tls act).isSome = true) := by
  have hi := reachable_inv hparse h
  refine ⟨fun i c hc hover => ?_, fun hwarming => ?_, fun hover hwarming hunload => ?_⟩
  · have hlive : Call.Phase.live c.phase = true := by
      cases hphase : c.phase with
      | freed => exact absurd hphase hover
      | _ => rfl
    obtain ⟨act, hact⟩ : ∃ act, (c.next parse P pin size tls x.pool.head? x.made act).isSome = true :=
      Call.exists_next (hi.calls c (List.mem_of_getElem? hc)) hlive
    exact ⟨act, by simp only [next, hc, Option.isSome_map]; exact hact⟩
  · cases hphase : x.warming with
    | idle => exact absurd hphase hwarming
    | connecting => exact ⟨.connected (.error .ioTimeout) 0, by simp only [next, Client.warm, hphase, Option.isSome_some]⟩
    | opening conn => exact ⟨.hello (.error .insufficientResources), by simp only [next, Client.warm, hphase, Option.isSome_some]⟩
    | handshaking conn hs =>
      obtain ⟨act, hact⟩ : ∃ act, (Handshake.next P pin size hs act).isSome = true := Handshake.exists_next (hi.warmed.handshaking conn hs hphase).goesOn
      exact ⟨.handshake act, by simp only [next, Client.warm, hphase, Option.isSome_map]; exact hact⟩
    | finishing => exact ⟨.finish, by simp only [next, Client.warm, hphase, Option.isSome_some]⟩
  · cases hphase : x.unload with
    | running => exact ⟨.drain, by simp, by simp only [next, hphase, if_true, Option.isSome_some]⟩
    | draining =>
      have hlive : x.live = 0 := tally_eq_zero fun c hc => by rw [hover c hc]; rfl
      have hactive := hi.active
      rw [hphase, hlive] at hactive
      have hevent : x.event = true := hi.event.2 hactive
      exact ⟨.latch, by simp, by simp only [next, hphase, hevent, and_self, if_true, Option.isSome_some]⟩
    | stopping => exact ⟨.observe, by simp, by simp only [next, hphase, hwarming, Option.isSome_some]⟩
    | stopped =>
      refine ⟨.cleanup, by simp, ?_⟩
      simp only [next, hphase, if_true]
      split <;> rfl
    | cleaned => exact absurd hphase hunload

theorem never_stuck_reuse : ∃ x, (system threeBytes Handshake.Sample.platform (some Handshake.Sample.pin) .small false).Reachable x ∧
    ∃ c, x.calls[1]? = some c ∧ c.phase ≠ .freed ∧
      ∃ act, (x.next threeBytes Handshake.Sample.platform (some Handshake.Sample.pin) .small false (.call 1 act)).isSome = true := by
  obtain ⟨x, hrun, hend⟩ := Option.map_eq_some_iff.1 Sample.reuse_ends
  have hreach := Sample.reached hrun
  have hone := congrArg (·[1]?) hend
  simp only [List.getElem?_map] at hone
  obtain ⟨c, hc, heq⟩ := Option.map_eq_some_iff.1 hone
  have hphase : c.phase ≠ .freed := by
    intro he
    rw [he] at heq
    cases heq
  exact ⟨x, hreach, c, hc, hphase, (never_stuck Sample.threeBytes_inside hreach).1 1 c hc hphase⟩

/-! ### No more than so many -/

/-- Whether a step is one of a request's that the peer's bytes do not call for. -/
def own (i : ℕ) : ClientAct → Bool
  | .call j act => j = i && act.own
  | _ => false

/-- What a request may yet do, and one that is yet to be issued. -/
def potential (i : ℕ) (x : Client) : ℕ :=
  match x.calls[i]? with
  | none => 119
  | some c => c.fuel

theorem potential_congr {i : ℕ} (h : x'.calls = x.calls) : x'.potential i = x.potential i := by
  unfold potential
  rw [h]

theorem next_potential {act : ClientAct} (i : ℕ) (hparse : ParsesInside parse) (h : x.Inv tls P pin size) (hn : x.next parse P pin size tls act = some x') :
    (if own i act then 1 else 0) + x'.potential i ≤ x.potential i := by
  have hkept : own i act = false → x'.calls = x.calls → (if own i act then 1 else 0) + x'.potential i ≤ x.potential i := by
    intro hown hcalls
    rw [hown, potential_congr hcalls, if_neg Bool.false_ne_true, Nat.zero_add]
  cases act with
  | issue r address buffer mdl =>
    unfold next at hn
    dsimp only at hn
    split_ifs at hn
    · obtain rfl := Option.some.inj hn
      exact hkept rfl rfl
    · obtain rfl := Option.some.inj hn
      show 0 + _ ≤ _
      rw [Nat.zero_add]
      unfold potential
      rcases Nat.lt_trichotomy i x.calls.length with hlt | rfl | hgt
      · rw [List.getElem?_append_left hlt]
      · rw [List.getElem?_concat_length, List.getElem?_eq_none (Nat.le_refl _)]
        exact (Call.fresh_fuel tls r address buffer mdl).le
      · rw [List.getElem?_eq_none (by rw [List.length_append, List.length_singleton]; omega), List.getElem?_eq_none hgt.le]
  | call j act =>
    unfold next at hn
    dsimp only at hn
    split at hn
    · cases hn
    · rename_i c hc
      obtain ⟨⟨c', e⟩, hnext, rfl⟩ := Option.map_eq_some_iff.1 hn
      obtain ⟨pool, closed, heq, _⟩ := perform_eq x j c' e
      have hcalls : (x.perform j c' e).calls = x.calls.set j c' := by rw [heq]
      show (if decide (j = i) && act.own then 1 else 0) + (x.perform j c' e).potential i ≤ x.potential i
      unfold potential
      rw [hcalls]
      by_cases hij : j = i
      · subst hij
        have hlt : j < x.calls.length := (List.getElem?_eq_some_iff.1 hc).1
        rw [List.getElem?_set_self hlt, hc]
        simp only [decide_true, Bool.true_and]
        exact Call.next_fuel hparse (h.calls c (List.mem_of_getElem? hc)) hnext
      · rw [List.getElem?_set_ne hij]
        simp only [hij, decide_false, Bool.false_and, Bool.false_eq_true, if_false, Nat.zero_add, Nat.le_refl]
  | warm act => exact hkept rfl (warm_kept hn).2
  | drain =>
    unfold next at hn
    dsimp only at hn
    split_ifs at hn
    obtain rfl := Option.some.inj hn
    exact hkept rfl rfl
  | latch =>
    unfold next at hn
    dsimp only at hn
    split_ifs at hn
    obtain rfl := Option.some.inj hn
    exact hkept rfl rfl
  | observe =>
    unfold next at hn
    dsimp only at hn
    split at hn
    · obtain rfl := Option.some.inj hn
      exact hkept rfl rfl
    · cases hn
  | cleanup =>
    unfold next at hn
    dsimp only at hn
    split_ifs at hn
    split at hn
    · obtain rfl := Option.some.inj hn
      exact hkept rfl rfl
    · obtain rfl := Option.some.inj hn
      exact hkept rfl rfl

/-- In no run does a request take more than 119 steps beside those of its handshakes and of receiving its
response: retries, connects that time out and work items are all among them. -/
theorem steps_bounded (hparse : ParsesInside parse) {acts : List ClientAct} (hrun : run (next parse P pin size tls) initial acts = some x) (i : ℕ) :
    acts.countP (own i) ≤ 119 := by
  have hstep : ∀ x act x', Inv tls P pin size x → x.next parse P pin size tls act = some x' →
      Inv tls P pin size x' ∧ (if own i act then 1 else 0) + x'.potential i ≤ x.potential i :=
    fun x act x' hx hn => ⟨next_inv hparse hx hn, next_potential i hparse hx hn⟩
  have hspent := run_spends hstep initial_inv hrun
  have hfirst : initial.potential i = 119 := rfl
  omega

theorem steps_bounded_visit : Sample.visit.countP (own 1) ≤ 119 := by
  obtain ⟨x, hrun, _⟩ := Option.map_eq_some_iff.1 Sample.visit_ends
  exact steps_bounded Sample.threeBytes_inside hrun 1

end Client

end BlorgFS.Http
