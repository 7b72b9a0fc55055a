import BlorgFS.Fsp.Wakeups

/-! Who has an IRP. At any time it is in one hand: on a thread or with a worker that has yet to
do something with it, in the queue, in the oplock package, with a fetch, or completed. What a
lookup has left on it stays there until somebody who has the IRP frees it. -/

namespace BlorgFS.Fsp

open Lib

/-! ### Hands -/

inductive Place where
  | passing
  | returned
  | fetched
  | requeued
  | refused
  | unparked
  | inserting
  | queued
  | running
  | discarded
  | parked
  | fetching
  | done
  deriving DecidableEq, Repr

/-- A thread that has answered `STATUS_PENDING` has nothing more to do with the IRP, nor has
one that has queued it. -/
def Thread.hold : Thread → Option (Place × ℕ)
  | pass i => some (.passing, i)
  | returned i (some _) => some (.returned, i)
  | fetched i _ => some (.fetched, i)
  | requeue i => some (.requeued, i)
  | refused i => some (.refused, i)
  | unparked i _ => some (.unparked, i)
  | insert i _ => some (.inserting, i)
  | discard i => some (.discarded, i)
  | returned _ none | signal _ => none

def Worker.hold : Worker → Option (Place × ℕ)
  | running i => some (.running, i)
  | returned i (some _) => some (.returned, i)
  | _ => none

namespace State

/-- The hands that are no threads. -/
def base (s : State) : List (Place × ℕ) :=
  s.irpQueue.map (.queued, ·) ++ s.parked.map (.parked, ·) ++ s.fetches.map (.fetching, ·) ++ s.completed.map (.done, ·.1)

/-- Every hand with the IRP in it. -/
def holds (s : State) : List (Place × ℕ) := s.base ++ s.threads.filterMap Thread.hold ++ s.workers.filterMap Worker.hold

end State

/-! ### What is on an IRP -/

/-- Nothing is left on a create. -/
def Irp.Calm (irp : Irp) : Prop := irp.netDone = false ∧ irp.context1 = none

/-- A create has what a lookup found. -/
def Irp.Laden (irp : Irp) : Prop := irp.netDone = true ∧ ∃ n, irp.context1 = some (.stash n)

/-- What is on an IRP, by the hand it is in. A read in the queue carries its stamp in the
other slot. -/
def Irp.Fine (irp : Irp) (p : Place) : Prop :=
  match irp.major with
  | .create =>
    match p with
    | .requeued | .refused => irp.Laden
    | .inserting | .queued | .running | .discarded => irp.Laden ∨ irp.Calm
    | .done => irp.context1 = none
    | _ => irp.Calm
  | .read =>
    irp.netDone = false ∧
      match p with
      | .queued | .discarded => ∃ t, irp.context1 = some (.stamp t)
      | .done => ∀ n, irp.context1 ≠ some (.stash n)
      | _ => irp.context1 = none ∧ ∃ t, irp.context3 = some (.stamp t)
  | .directoryControl => irp.context1 = none

/-- A stash that is on an IRP, counted. -/
def Irp.carries (irp : Irp) (n : ℕ) : ℕ := irp.context1.toList.count (.stash n)

/-- Every IRP is in one hand, and every stash is on one IRP or has been freed once. -/
structure Sound (s : State) : Prop where
  held : ∀ i, (s.holds.map (·.2)).count i = if i < s.issued then 1 else 0
  fine : ∀ h ∈ s.holds, (s.irps h.2).Fine h.1
  ledger : ∀ n, tally (fun h => (s.irps h.2).carries n) s.holds + s.freed.count (.stash n) = if n < s.stashes then 1 else 0
  stashes : ∀ x ∈ s.freed, ∃ n, x = .stash n

variable {s s' s₁ : State} {k : Choice} {t : Thread} {threads : List Thread} {i j w n : ℕ} {st : Status} {act : Act} {a b : Worker} {p p' : Place}
  {rest given hands : List (Place × ℕ)} {irp : Irp}

/-- An IRP goes from one hand to another. -/
theorem Sound.move {q : Place} (h : Sound s) (hp : s.holds.Perm ((p, i) :: rest)) (hp' : s'.holds.Perm ((q, i) :: rest)) (hissued : s'.issued = s.issued)
    (hirps : ∀ j, j ≠ i → s'.irps j = s.irps j) (hfine : (s'.irps i).Fine q)
    (hledger : ∀ n, (s'.irps i).carries n + s'.freed.count (.stash n) + (if n < s.stashes then 1 else 0) =
      (s.irps i).carries n + s.freed.count (.stash n) + if n < s'.stashes then 1 else 0)
    (hstashes : ∀ x ∈ s'.freed, ∃ n, x = .stash n) : Sound s' := by
  have hne : ∀ x ∈ rest, x.2 ≠ i := by
    rintro ⟨r, j⟩ hx rfl
    have hcount := h.held j
    rw [(hp.map _).count_eq, List.map_cons, List.count_cons_self] at hcount
    have hpos : 0 < (rest.map (·.2)).count j := List.count_pos_iff.mpr (List.mem_map_of_mem hx)
    split_ifs at hcount
    omega
  have hsame : ∀ x ∈ rest, s'.irps x.2 = s.irps x.2 := fun x hx => hirps _ (hne x hx)
  constructor
  · intro j
    rw [(hp'.map _).count_eq, hissued, ← h.held j, (hp.map _).count_eq]
    rfl
  · intro x hx
    rcases List.mem_cons.mp (hp'.mem_iff.mp hx) with rfl | hx
    · exact hfine
    · rw [hsame x hx]
      exact h.fine x (hp.mem_iff.mpr (List.mem_cons_of_mem _ hx))
  · intro n
    have hrest : tally (fun x => (s'.irps x.2).carries n) rest = tally (fun x => (s.irps x.2).carries n) rest :=
      tally_congr fun x hx => by rw [hsame x hx]
    have hold := h.ledger n
    rw [tally_perm hp, tally_cons] at hold
    rw [tally_perm hp', tally_cons, hrest]
    have := hledger n
    simp only at hold ⊢
    omega
  · exact hstashes

/-- Nothing changes hands and nothing is freed. -/
theorem Sound.congr (h : Sound s) (hp : s'.holds.Perm s.holds) (hissued : s'.issued = s.issued) (hirps : s'.irps = s.irps)
    (hfreed : s'.freed = s.freed) (hstashes : s'.stashes = s.stashes) : Sound s' := by
  constructor
  · intro i
    rw [(hp.map _).count_eq, hissued]
    exact h.held i
  · intro x hx
    rw [hirps]
    exact h.fine x (hp.mem_iff.mp hx)
  · intro n
    rw [tally_perm hp, hirps, hfreed, hstashes]
    exact h.ledger n
  · rw [hfreed]
    exact h.stashes

/-! ### What one who has an IRP does to it -/

/-- From `s` to `s'` the IRP `i`, in hand `p` before, is prepared for hand `p'`, and put into
the hands `given` that are no threads. -/
structure Hands (s s' : State) (p : Place) (i : ℕ) (p' : Place) (given : List (Place × ℕ)) : Prop where
  base : s'.base.Perm (given ++ s.base)
  threads : s'.threads = s.threads
  workers : s'.workers = s.workers
  issued : s'.issued = s.issued
  others : ∀ j, j ≠ i → s'.irps j = s.irps j
  fine : (s'.irps i).Fine p'
  ledger : ∀ n, (s'.irps i).carries n + s'.freed.count (.stash n) + (if n < s.stashes then 1 else 0) =
    (s.irps i).carries n + s.freed.count (.stash n) + if n < s'.stashes then 1 else 0
  stashes : ∀ x ∈ s'.freed, x ∈ s.freed ∨ ∃ n, x = .stash n

theorem Hands.keep (h : (s.irps i).Fine p') : Hands s s p i p' [] :=
  ⟨.refl _, rfl, rfl, rfl, fun _ _ => rfl, h, fun _ => rfl, fun _ hx => .inl hx⟩

theorem Hands.trans {q : Place} {given' : List (Place × ℕ)} (h : Hands s s₁ p i q given) (h' : Hands s₁ s' q i p' given') :
    Hands s s' p i p' (given' ++ given) where
  base := (h'.base.trans (h.base.append_left _)).trans (by rw [List.append_assoc])
  threads := h'.threads.trans h.threads
  workers := h'.workers.trans h.workers
  issued := h'.issued.trans h.issued
  others j hj := (h'.others j hj).trans (h.others j hj)
  fine := h'.fine
  ledger n := by
    have h1 := h.ledger n
    have h2 := h'.ledger n
    omega
  stashes x hx := by
    rcases h'.stashes x hx with hx | hx
    · exact h.stashes x hx
    · exact .inr hx

/-- What is on an IRP that is not completed can be discarded. -/
def Irp.Loose (irp : Irp) : Prop := irp.netDone = true → ∀ x, irp.context1 = some x → ∃ n, x = .stash n

/-- The hands an IRP is in with nothing left on it. -/
def Place.calm : Place → Bool
  | passing | returned | fetched | unparked | parked | fetching => true
  | _ => false

theorem Irp.Fine.loose (h : irp.Fine p) (hp : p ≠ .done) : irp.Loose := by
  intro hn x hx
  unfold Irp.Fine at h
  split at h
  · have hl : irp.Laden ∨ irp.Calm := by
      cases p with
      | done => exact absurd rfl hp
      | requeued | refused => exact .inl h
      | inserting | queued | running | discarded => exact h
      | _ => exact .inr h
    rcases hl with ⟨_, n, hs⟩ | ⟨h0, _⟩
    · rw [hx] at hs
      exact ⟨n, Option.some.inj hs⟩
    · rw [hn] at h0
      cases h0
  · rw [hn] at h
    cases h.1
  · rw [hx] at h
    cases h

theorem Irp.Fine.calm (h : irp.Fine p) (hp : p.calm = true) (hp' : p'.calm = true ∨ p' = .inserting ∨ p' = .done) : irp.Fine p' := by
  unfold Irp.Fine at h ⊢
  split at h
  · have hc : irp.Calm := by cases p <;> first | exact h | cases hp
    cases p' with
    | requeued | refused | queued | running | discarded => simp [Place.calm] at hp'
    | inserting => exact .inr hc
    | done => exact hc.2
    | _ => exact hc
  · obtain ⟨hn, hr⟩ := h
    have hc : irp.context1 = none ∧ ∃ t, irp.context3 = some (.stamp t) := by cases p <;> first | exact hr | cases hp
    refine ⟨hn, ?_⟩
    cases p' with
    | queued | discarded => simp [Place.calm] at hp'
    | done =>
      intro n
      rw [hc.1]
      nofun
    | _ => exact hc
  · exact h

namespace State

theorem setIrp_self : (s.setIrp i irp).irps i = irp := Function.update_self ..

theorem setIrp_of_ne (h : j ≠ i) : (s.setIrp i irp).irps j = s.irps j := Function.update_of_ne h ..

theorem hands_complete (hf : (s.irps i).Fine .done) : Hands s (s.complete i st) p i .done [(.done, i)] :=
  ⟨List.perm_middle, rfl, rfl, rfl, fun _ _ => rfl, hf, fun _ => rfl, fun _ hx => .inl hx⟩

theorem hands_freeContext (hl : ∀ x, (s.irps i).context1 = some x → ∃ n, x = .stash n) (hf : { s.irps i with context1 := none }.Fine p') :
    Hands s (s.freeContext i) p i p' [] where
  base := .refl _
  threads := rfl
  workers := rfl
  issued := rfl
  others j hj := setIrp_of_ne hj
  fine := by
    show ((s.setIrp i _).irps i).Fine p'
    rw [setIrp_self]
    exact hf
  ledger n := by
    show ((s.setIrp i _).irps i).carries n + ((s.irps i).context1.toList ++ s.freed).count (.stash n) + _ = _
    rw [setIrp_self, List.count_append]
    simp only [Irp.carries, Option.toList_none, List.count_nil, Nat.zero_add]
    rfl
  stashes x hx := by
    rcases List.mem_append.mp hx with hx | hx
    · exact .inr (hl x (by simpa [Option.mem_toList] using hx))
    · exact .inl hx

theorem hands_setIrp (hc : irp.context1 = (s.irps i).context1) (hf : irp.Fine p') : Hands s (s.setIrp i irp) p i p' [] where
  base := .refl _
  threads := rfl
  workers := rfl
  issued := rfl
  others j hj := setIrp_of_ne hj
  fine := by
    rw [setIrp_self]
    exact hf
  ledger n := by
    rw [setIrp_self, Irp.carries, hc]
    rfl
  stashes x hx := .inl hx

/-- Whatever was on the IRP is gone. -/
theorem hands_discardContext (hl : (s.irps i).Loose)
    (hf : (if (s.irps i).netDone then { s.irps i with netDone := false, context1 := none } else s.irps i).Fine p') :
    Hands s (s.discardContext i) p i p' [] := by
  unfold discardContext
  split_ifs at hf ⊢ with hn
  · have hself : (s.setIrp i { s.irps i with netDone := false }).irps i = { s.irps i with netDone := false } := setIrp_self
    have hloose := hl hn
    constructor
    · exact .refl _
    · rfl
    · rfl
    · rfl
    · intro j hj
      exact (setIrp_of_ne hj).trans (setIrp_of_ne hj)
    · rw [freeContext, hself]
      show ((State.setIrp _ i _).irps i).Fine p'
      rw [setIrp_self]
      exact hf
    · intro n
      rw [freeContext, hself]
      show ((State.setIrp _ i _).irps i).carries n + ((s.irps i).context1.toList ++ s.freed).count (.stash n) + _ = _
      rw [setIrp_self, List.count_append]
      simp only [Irp.carries, Option.toList_none, List.count_nil, Nat.zero_add]
      rfl
    · intro x hx
      rw [freeContext, hself] at hx
      rcases List.mem_append.mp hx with hx | hx
      · exact .inr (hloose x (by simpa [Option.mem_toList] using hx))
      · exact .inl hx
  · exact .keep hf

theorem hands_consume (hp : p = .passing ∨ p = .running) (hf : (s.irps i).Fine p) (hp' : p'.calm = true ∨ p' = .inserting) :
    Hands s (s.consume i) p i p' [] := by
  have hl : (s.irps i).Loose := hf.loose (by rcases hp with rfl | rfl <;> nofun)
  unfold consume
  split_ifs with hm
  · apply hands_discardContext hl
    have hcalm : (if (s.irps i).netDone then { s.irps i with netDone := false, context1 := none } else s.irps i).Calm := by
      split_ifs with hn
      · exact ⟨rfl, rfl⟩
      · unfold Irp.Fine at hf
        rw [hm] at hf
        rcases hp with rfl | rfl
        · exact hf
        · exact hf.resolve_left fun h => hn h.1
    have hmajor : (if (s.irps i).netDone then { s.irps i with netDone := false, context1 := none } else s.irps i).major = .create := by
      split_ifs <;> exact hm
    unfold Irp.Fine
    rw [hmajor]
    rcases hp' with hp' | rfl
    · cases p' <;> first | exact hcalm | cases hp'
    · exact .inr hcalm
  · apply Hands.keep
    unfold Irp.Fine at hf ⊢
    cases hmajor : (s.irps i).major with
    | create => exact absurd hmajor hm
    | directoryControl =>
      rw [hmajor] at hf
      exact hf
    | read =>
      rw [hmajor] at hf
      obtain ⟨hn, hr⟩ := hf
      have hc : (s.irps i).context1 = none ∧ ∃ t, (s.irps i).context3 = some (.stamp t) := by rcases hp with rfl | rfl <;> exact hr
      refine ⟨hn, ?_⟩
      rcases hp' with hp' | rfl
      · cases p' <;> first | exact hc | cases hp'
      · exact hc

theorem hands_parked (hf : (s.irps i).Fine .parked) : Hands s { s with parked := i :: s.parked } .parked i .parked [(.parked, i)] where
  base := by
    simp only [base, List.map_cons, List.append_assoc, List.cons_append, List.nil_append]
    exact List.perm_middle
  threads := rfl
  workers := rfl
  issued := rfl
  others _ _ := rfl
  fine := hf
  ledger _ := rfl
  stashes _ hx := .inl hx

theorem hands_fetching (hf : (s.irps i).Fine .fetching) : Hands s { s with fetches := i :: s.fetches } .fetching i .fetching [(.fetching, i)] where
  base := by
    simp only [base, List.map_cons, List.append_assoc, List.cons_append, List.nil_append]
    rw [← List.append_assoc, ← List.append_assoc]
    exact List.perm_middle
  threads := rfl
  workers := rfl
  issued := rfl
  others _ _ := rfl
  fine := hf
  ledger _ := rfl
  stashes _ hx := .inl hx

/-- What a pass answers says where the IRP is: it is returned to be completed, or somebody
else has it, or it is to be queued. -/
theorem hands_handle {v : Verdict} {answer : Answer} (hp : p = .passing ∨ p = .running) (hf : (s.irps i).Fine p)
    (h : s.handle i v = some (s', answer)) :
    match answer with
    | .result (some _) => Hands s s' p i .returned []
    | .result none => ∃ p', Hands s s' p i p' [(p', i)]
    | .insert => Hands s s' p i .inserting [] := by
  have hreturned : Hands s (s.consume i) p i .returned [] := hands_consume hp hf (.inl rfl)
  cases v with
  | finish st =>
    obtain ⟨rfl, rfl⟩ := Prod.mk.inj (Option.some.inj h)
    exact hreturned
  | post unlocked =>
    simp only [handle] at h
    split_ifs at h
    · obtain ⟨rfl, rfl⟩ := Prod.mk.inj (Option.some.inj h)
      cases unlocked with
      | some st => exact hreturned
      | none => exact hands_consume hp hf (.inr rfl)
    · obtain ⟨rfl, rfl⟩ := Prod.mk.inj (Option.some.inj h)
      exact hreturned
  | park =>
    simp only [handle] at h
    split_ifs at h
    obtain ⟨rfl, rfl⟩ := Prod.mk.inj (Option.some.inj h)
    have hc : Hands s (s.consume i) p i .parked [] := hands_consume hp hf (.inl rfl)
    exact ⟨.parked, hc.trans (hands_parked hc.fine)⟩
  | fetch refused =>
    simp only [handle] at h
    split_ifs at h
    cases refused with
    | some st =>
      obtain ⟨rfl, rfl⟩ := Prod.mk.inj (Option.some.inj h)
      exact hreturned
    | none =>
      obtain ⟨rfl, rfl⟩ := Prod.mk.inj (Option.some.inj h)
      have hc : Hands s (s.consume i) p i .fetching [] := hands_consume hp hf (.inl rfl)
      exact ⟨.fetching, hc.trans (hands_fetching hc.fine)⟩

theorem hands_fetched (hf : (s.irps i).Fine .fetched) :
    ∃ p' given, Hands s (s.fetched i st k).1 .fetched i p' given ∧ given ++ (s.fetched i st k).2.filterMap Thread.hold = [(p', i)] := by
  have hdone : ∀ st, Hands s (s.complete i st) .fetched i .done [(.done, i)] := fun st => hands_complete (hf.calm rfl (.inr (.inr rfl)))
  unfold fetched
  split
  · exact ⟨_, _, hdone st, rfl⟩
  · rename_i hm
    split_ifs
    · refine ⟨.requeued, [], ?_, rfl⟩
      have hself : ∀ irp, (s.setIrp i irp).irps i = irp := fun _ => setIrp_self
      have hcalm : (s.irps i).Calm := by
        unfold Irp.Fine at hf
        rwa [hm] at hf
      constructor
      · exact .refl _
      · rfl
      · rfl
      · rfl
      · exact fun j hj => setIrp_of_ne hj
      · show ((s.setIrp i _).irps i).Fine .requeued
        rw [hself]
        unfold Irp.Fine
        simp only [hm]
        exact ⟨rfl, _, rfl⟩
      · intro n
        show ((s.setIrp i _).irps i).carries n + s.freed.count (.stash n) + _ = _ + _ + if n < s.stashes + 1 then 1 else 0
        rw [hself]
        simp only [Irp.carries, hcalm.2, Option.toList_some, Option.toList_none, List.count_nil, List.count_singleton, beq_iff_eq, Payload.stash.injEq]
        split_ifs <;> omega
      · exact fun x hx => .inl hx
    · exact ⟨_, _, hdone _, rfl⟩
    · exact ⟨_, _, hdone st, rfl⟩
  · rename_i hm
    split_ifs
    · refine ⟨.requeued, [], hands_setIrp rfl ?_, rfl⟩
      unfold Irp.Fine at hf ⊢
      simp only [hm] at hf ⊢
      exact hf
    · exact ⟨_, _, hdone st, rfl⟩

theorem hands_refused (hf : (s.irps i).Fine .refused) : Hands s (s.refused i) .refused i .done [(.done, i)] := by
  unfold refused
  have hl := hf.loose (by nofun)
  split_ifs with hm
  · have hladen : (s.irps i).Laden := by
      unfold Irp.Fine at hf
      rwa [hm] at hf
    have hfree : Hands s (s.freeContext i) .refused i .done [] := by
      apply hands_freeContext (hl hladen.1)
      unfold Irp.Fine
      simp only [hm]
    exact hfree.trans (hands_complete hfree.fine)
  · apply hands_complete
    unfold Irp.Fine at hf ⊢
    cases hmajor : (s.irps i).major with
    | create => exact absurd hmajor hm
    | read =>
      rw [hmajor] at hf
      refine ⟨hf.1, fun n => ?_⟩
      rw [hf.2.1]
      nofun
    | directoryControl =>
      rw [hmajor] at hf
      exact hf

theorem hands_insert (hf : (s.irps i).Fine .inserting) : Hands s (s.insert i) .inserting i .queued [(.queued, i)] where
  base := by
    simp only [insert, setIrp, base, List.map_append, List.map_cons, List.map_nil, List.append_assoc, List.cons_append, List.nil_append]
    exact List.perm_middle
  threads := rfl
  workers := rfl
  issued := rfl
  others j hj := setIrp_of_ne hj
  fine := by
    show ((s.setIrp i _).irps i).Fine .queued
    rw [setIrp_self]
    unfold Irp.Fine at hf ⊢
    cases hm : (s.irps i).major <;> simp only [hm] at hf ⊢
    · simpa [Irp.Laden, Irp.Calm] using hf
    · exact ⟨hf.1, hf.2.2⟩
    · simpa using hf
  ledger n := by
    show ((s.setIrp i _).irps i).carries n + _ + _ = _
    rw [setIrp_self]
    unfold Irp.Fine at hf
    cases hm : (s.irps i).major <;> simp only [hm] at hf <;> simp only [Irp.carries]
    · rfl
    · obtain ⟨_, hnone, t, hstamp⟩ := hf
      simp [hnone, hstamp, insert, setIrp]
    · rfl
  stashes _ hx := .inl hx

theorem hands_discarded (hf : (s.irps i).Fine .discarded) : Hands s ((s.discardContext i).complete i .cancelled) .discarded i .done [(.done, i)] := by
  have hl := hf.loose (by nofun)
  have hdiscard : Hands s (s.discardContext i) .discarded i .done [] := by
    apply hands_discardContext hl
    unfold Irp.Fine at hf ⊢
    cases hm : (s.irps i).major <;> simp only [hm] at hf
    · split_ifs with hn <;> simp only [hm]
      rcases hf with hladen | hcalm
      · exact absurd hladen.1 hn
      · exact hcalm.2
    · rw [hf.1, if_neg (by simp)]
      simp only [hm]
      obtain ⟨hn, t, ht⟩ := hf
      refine ⟨hn, fun n => ?_⟩
      rw [ht]
      nofun
    · split_ifs <;> simp only [hm]
      exact hf
  exact hdiscard.trans (hands_complete hdiscard.fine)

/-- What a thread does with the IRP it has leaves it in one hand. -/
theorem hands_thread (hhold : t.hold = some (p, i)) (hf : (s.irps i).Fine p) (h : s.thread k t = some (s', threads)) :
    ∃ p' given, Hands s s' p i p' given ∧ given ++ threads.filterMap Thread.hold = [(p', i)] := by
  cases t with
  | pass j =>
    obtain ⟨rfl, rfl⟩ := Prod.mk.inj (Option.some.inj hhold)
    obtain ⟨⟨s₁, answer⟩, hh, he⟩ := Option.map_eq_some_iff.mp h
    have hands := hands_handle (.inl rfl) hf hh
    cases answer with
    | insert =>
      obtain ⟨rfl, rfl⟩ := Prod.mk.inj he
      exact ⟨_, _, hands, rfl⟩
    | result r =>
      obtain ⟨rfl, rfl⟩ := Prod.mk.inj he
      cases r with
      | some st => exact ⟨_, _, hands, rfl⟩
      | none =>
        obtain ⟨p', hands⟩ := hands
        exact ⟨p', _, hands, rfl⟩
  | returned j result =>
    cases result with
    | none => cases hhold
    | some st =>
      obtain ⟨rfl, rfl⟩ := Prod.mk.inj (Option.some.inj hhold)
      obtain ⟨rfl, rfl⟩ := Prod.mk.inj (Option.some.inj h)
      exact ⟨_, _, hands_complete (hf.calm rfl (.inr (.inr rfl))), rfl⟩
  | fetched j st =>
    obtain ⟨rfl, rfl⟩ := Prod.mk.inj (Option.some.inj hhold)
    have hands : ∃ p' given, Hands s (s.fetched j st k).1 .fetched j p' given ∧ given ++ (s.fetched j st k).2.filterMap Thread.hold = [(p', j)] :=
      hands_fetched hf
    obtain ⟨h1, h2⟩ := Prod.mk.inj (Option.some.inj h)
    rw [← h1, ← h2]
    exact hands
  | requeue j =>
    obtain ⟨rfl, rfl⟩ := Prod.mk.inj (Option.some.inj hhold)
    obtain ⟨rfl, rfl⟩ := Prod.mk.inj (Option.some.inj h)
    split_ifs
    · refine ⟨.inserting, [], .keep ?_, rfl⟩
      unfold Irp.Fine at hf ⊢
      split at hf
      · exact .inl hf
      · exact hf
      · exact hf
    · refine ⟨.refused, [], .keep ?_, rfl⟩
      unfold Irp.Fine at hf ⊢
      split at hf
      · exact hf
      · exact hf
      · exact hf
  | refused j =>
    obtain ⟨rfl, rfl⟩ := Prod.mk.inj (Option.some.inj hhold)
    obtain ⟨rfl, rfl⟩ := Prod.mk.inj (Option.some.inj h)
    exact ⟨_, _, hands_refused hf, rfl⟩
  | unparked j st =>
    obtain ⟨rfl, rfl⟩ := Prod.mk.inj (Option.some.inj hhold)
    simp only [thread] at h
    have hdone : ∀ st, Hands s (s.complete j st) .unparked j .done [(.done, j)] := fun st => hands_complete (hf.calm rfl (.inr (.inr rfl)))
    split_ifs at h <;> obtain ⟨rfl, rfl⟩ := Prod.mk.inj (Option.some.inj h)
    · exact ⟨.inserting, [], .keep (hf.calm rfl (.inr (.inl rfl))), rfl⟩
    · exact ⟨_, _, hdone _, rfl⟩
    · exact ⟨_, _, hdone _, rfl⟩
  | insert j posted =>
    obtain ⟨rfl, rfl⟩ := Prod.mk.inj (Option.some.inj hhold)
    obtain ⟨rfl, rfl⟩ := Prod.mk.inj (Option.some.inj h)
    exact ⟨_, _, hands_insert hf, rfl⟩
  | signal poster => cases hhold
  | discard j =>
    obtain ⟨rfl, rfl⟩ := Prod.mk.inj (Option.some.inj hhold)
    obtain ⟨rfl, rfl⟩ := Prod.mk.inj (Option.some.inj h)
    exact ⟨_, _, hands_discarded hf, rfl⟩

end State

/-! ### Lists of hands -/

theorem filterMap_cons_toList {α β : Type*} (f : α → Option β) (a : α) (l : List α) : (a :: l).filterMap f = (f a).toList ++ l.filterMap f := by
  cases h : f a <;> simp [h]

theorem perm_filterMap {α β : Type*} {f : α → Option β} {l : List α} {a : α} (h : l[n]? = some a) :
    (l.filterMap f).Perm ((f a).toList ++ (l.eraseIdx n).filterMap f) := by
  obtain ⟨hn, rfl⟩ := List.getElem?_eq_some_iff.mp h
  rw [← filterMap_cons_toList]
  exact (List.getElem_cons_eraseIdx_perm hn).symm.filterMap f

theorem perm_filterMap_set {α β : Type*} {f : α → Option β} {l : List α} {a : α} (h : l[n]? = some a) (b : α) :
    ((l.set n b).filterMap f).Perm ((f b).toList ++ (l.eraseIdx n).filterMap f) := by
  obtain ⟨hn, rfl⟩ := List.getElem?_eq_some_iff.mp h
  have hset : (l.set n b)[n]? = some b := List.getElem?_set_self hn
  have hperm := perm_filterMap (f := f) hset
  rwa [List.eraseIdx_set_eq] at hperm

namespace State

/-- A thread without an IRP does nothing to any, and comes to have none. -/
theorem thread_of_hold_none (hhold : t.hold = none) (h : s.thread k t = some (s', threads)) :
    s'.base = s.base ∧ (s'.workers.filterMap Worker.hold).Perm (s.workers.filterMap Worker.hold) ∧ s'.issued = s.issued ∧
      s'.irps = s.irps ∧ s'.freed = s.freed ∧ s'.stashes = s.stashes ∧ threads.filterMap Thread.hold = [] := by
  cases t with
  | returned j result =>
    cases result with
    | none =>
      obtain ⟨rfl, rfl⟩ := Prod.mk.inj (Option.some.inj h)
      exact ⟨rfl, .refl _, rfl, rfl, rfl, rfl, rfl⟩
    | some st => cases hhold
  | signal poster =>
    obtain ⟨s₁, hs, he⟩ := Option.map_eq_some_iff.mp h
    obtain ⟨rfl, hposter⟩ := Prod.mk.inj he
    have hthreads : threads.filterMap Thread.hold = [] := by
      rw [← hposter]
      cases poster <;> rfl
    unfold setWorkEvent at hs
    split_ifs at hs with hb hw
    · obtain rfl := Option.some.inj hs
      have h1 : (s.workers.filterMap Worker.hold).Perm (Worker.blocked.hold.toList ++ (s.workers.eraseIdx k.waiter).filterMap Worker.hold) := perm_filterMap hw
      exact ⟨rfl, (perm_filterMap_set hw .removing).trans h1.symm, rfl, rfl, rfl, rfl, hthreads⟩
    · obtain rfl := Option.some.inj hs
      exact ⟨rfl, .refl _, rfl, rfl, rfl, rfl, hthreads⟩
  | _ => cases hhold

/-! ### Every step -/

theorem sound_thread (hs : Sound s) (hj : s.threads[j]? = some t) (h : s.thread k t = some (s', threads)) :
    Sound { s' with threads := threads ++ s.threads.eraseIdx j } := by
  have hperm : (s.threads.filterMap Thread.hold).Perm (t.hold.toList ++ (s.threads.eraseIdx j).filterMap Thread.hold) := perm_filterMap hj
  cases hhold : t.hold with
  | none =>
    obtain ⟨h1, h2, h3, h4, h5, h6, h7⟩ := thread_of_hold_none hhold h
    rw [hhold] at hperm
    refine hs.congr ?_ h3 h4 h5 h6
    show (s'.base ++ (threads ++ s.threads.eraseIdx j).filterMap Thread.hold ++ s'.workers.filterMap Worker.hold).Perm _
    rw [h1, List.filterMap_append, h7, List.nil_append]
    exact (hperm.symm.append_left _).append h2
  | some hand =>
    obtain ⟨p, i⟩ := hand
    rw [hhold] at hperm
    have hholds : s.holds.Perm ((p, i) :: (s.base ++ (s.threads.eraseIdx j).filterMap Thread.hold ++ s.workers.filterMap Worker.hold)) := by
      refine ((hperm.append_left _).append_right _).trans ?_
      rw [Option.toList_some, List.singleton_append, List.append_assoc, List.append_assoc, List.cons_append]
      exact List.perm_middle
    have hfine : (s.irps i).Fine p := hs.fine _ (hholds.mem_iff.mpr List.mem_cons_self)
    obtain ⟨p', given, hands, hgiven⟩ := hands_thread hhold hfine h
    refine hs.move hholds (q := p') ?_ hands.issued hands.others hands.fine hands.ledger ?_
    · show (s'.base ++ (threads ++ s.threads.eraseIdx j).filterMap Thread.hold ++ s'.workers.filterMap Worker.hold).Perm _
      rw [hands.workers, List.filterMap_append]
      have hbase : (s'.base ++ threads.filterMap Thread.hold).Perm ((p', i) :: s.base) := by
        rw [← List.singleton_append, ← hgiven]
        refine (hands.base.append_right _).trans ?_
        rw [List.append_assoc, List.append_assoc]
        exact List.perm_append_comm.append_left _
      have := (hbase.append_right ((s.threads.eraseIdx j).filterMap Thread.hold)).append_right (s.workers.filterMap Worker.hold)
      simpa only [List.append_assoc, List.cons_append] using this
    · intro x hx
      rcases hands.stashes x hx with hx | hx
      · exact hs.stashes x hx
      · exact hx

/-- A worker that has no IRP before and after. -/
theorem sound_idle (hs : Sound s) (hw : s.workers[w]? = some a) (ha : a.hold = none) (hb : b.hold = none) (workEvent : Bool) :
    Sound { s with workEvent, workers := s.workers.set w b } := by
  have h1 : (s.workers.filterMap Worker.hold).Perm (a.hold.toList ++ (s.workers.eraseIdx w).filterMap Worker.hold) := perm_filterMap hw
  have h2 : ((s.workers.set w b).filterMap Worker.hold).Perm (b.hold.toList ++ (s.workers.eraseIdx w).filterMap Worker.hold) := perm_filterMap_set hw b
  rw [ha] at h1
  rw [hb] at h2
  exact hs.congr ((h2.trans h1.symm).append_left _) rfl rfl rfl rfl

/-- A worker that has an IRP does something with it. -/
theorem sound_working (hs : Sound s) (hw : s.workers[w]? = some a) (ha : a.hold = some (p, i)) (hands : Hands s s' p i p' given)
    (hgiven : given ++ b.hold.toList = [(p', i)]) : Sound { s' with workers := s.workers.set w b } := by
  have h1 : (s.workers.filterMap Worker.hold).Perm (a.hold.toList ++ (s.workers.eraseIdx w).filterMap Worker.hold) := perm_filterMap hw
  have h2 : ((s.workers.set w b).filterMap Worker.hold).Perm (b.hold.toList ++ (s.workers.eraseIdx w).filterMap Worker.hold) := perm_filterMap_set hw b
  rw [ha] at h1
  have hholds : s.holds.Perm ((p, i) :: (s.base ++ s.threads.filterMap Thread.hold ++ (s.workers.eraseIdx w).filterMap Worker.hold)) :=
    (h1.append_left _).trans List.perm_middle
  refine hs.move hholds (q := p') ?_ hands.issued hands.others hands.fine hands.ledger ?_
  · show (s'.base ++ s'.threads.filterMap Thread.hold ++ (s.workers.set w b).filterMap Worker.hold).Perm _
    rw [hands.threads]
    rw [List.perm_iff_count]
    intro e
    have h3 := hands.base.count_eq e
    have h4 := h2.count_eq e
    have h5 := congrArg (List.count e) hgiven
    rw [← List.singleton_append, ← hgiven]
    simp only [List.count_append] at h3 h4 h5 ⊢
    omega
  · intro x hx
    rcases hands.stashes x hx with hx | hx
    · exact hs.stashes x hx
    · exact hx

theorem sound_dispatch {irpQueue : List ℕ} (hs : Sound s) (hw : s.workers[w]? = some .removing) (hq : s.irpQueue = i :: irpQueue) :
    Sound { s.dispatch i irpQueue with workers := s.workers.set w (.running i) } := by
  have h1 : (s.workers.filterMap Worker.hold).Perm (Worker.removing.hold.toList ++ (s.workers.eraseIdx w).filterMap Worker.hold) := perm_filterMap hw
  have h2 : ((s.workers.set w (.running i)).filterMap Worker.hold).Perm ((Worker.running i).hold.toList ++ (s.workers.eraseIdx w).filterMap Worker.hold) :=
    perm_filterMap_set hw _
  have hbase : s.base = (.queued, i) :: { s with irpQueue }.base := by
    simp only [base, hq, List.map_cons, List.cons_append]
  have hholds : s.holds.Perm ((.queued, i) :: ({ s with irpQueue }.base ++ s.threads.filterMap Thread.hold ++ (s.workers.eraseIdx w).filterMap Worker.hold)) := by
    rw [holds, hbase]
    exact (h1.append_left _).trans (.refl _)
  have hf : (s.irps i).Fine .queued := hs.fine _ (hholds.mem_iff.mpr List.mem_cons_self)
  have hself : ∀ irp, (s.setIrp i irp).irps i = irp := fun _ => setIrp_self
  refine hs.move hholds (q := .running) ?_ rfl (fun j hj => setIrp_of_ne hj) ?_ ?_ hs.stashes
  · exact (h2.append_left _).trans List.perm_middle
  · show ((s.setIrp i _).irps i).Fine .running
    rw [hself]
    unfold Irp.Fine at hf ⊢
    cases hm : (s.irps i).major <;> simp only [hm] at hf ⊢
    · simpa [Irp.Laden, Irp.Calm] using hf
    · simpa using hf
    · simpa using hf
  · intro n
    show ((s.setIrp i _).irps i).carries n + _ + _ = _
    rw [hself]
    unfold Irp.Fine at hf
    cases hm : (s.irps i).major <;> simp only [hm] at hf <;> simp only [Irp.carries]
    · rfl
    · obtain ⟨_, t, ht⟩ := hf
      simp [ht, dispatch, setIrp]
    · rfl

theorem sound_worker (hs : Sound s) (hw : s.workers[w]? = some a) (h : s.worker k a = some (s', b)) :
    Sound { s' with workers := s.workers.set w b } := by
  rcases worker_cases h with ⟨rfl, ⟨_, rfl, he⟩ | ⟨_, _, rfl, he⟩ | ⟨_, _, rfl, he⟩⟩ | ⟨rfl, _, rfl, he⟩ | ⟨i, irpQueue, rfl, hq, rfl, he⟩ |
    ⟨i, r, rfl, rfl, hh⟩ | ⟨i, r, rfl, rfl, he⟩
  · rw [he]
    exact sound_idle hs hw rfl rfl false
  · rw [he]
    exact sound_idle hs hw rfl rfl _
  · rw [he]
    exact sound_idle hs hw rfl rfl _
  · rw [he]
    exact sound_idle hs hw rfl rfl _
  · rw [he]
    exact sound_dispatch hs hw hq
  · have hmem : (Place.running, i) ∈ s.holds := List.mem_append_right _ (List.mem_filterMap.mpr ⟨_, List.mem_of_getElem? hw, rfl⟩)
    have hands := hands_handle (.inr rfl) (hs.fine _ hmem) hh
    cases r with
    | some st => exact sound_working hs hw rfl hands rfl
    | none =>
      obtain ⟨p', hands⟩ := hands
      exact sound_working hs hw rfl hands rfl
  · rw [he]
    cases r with
    | none => exact sound_idle hs hw rfl rfl _
    | some st =>
      have hmem : (Place.returned, i) ∈ s.holds := List.mem_append_right _ (List.mem_filterMap.mpr ⟨_, List.mem_of_getElem? hw, rfl⟩)
      have hf : (s.irps i).Fine .returned := hs.fine _ hmem
      exact sound_working hs hw rfl (hands_complete (hf.calm rfl (.inr (.inr rfl)))) rfl

/-- An IRP goes from a hand that is no thread to a thread. -/
theorem sound_taken (hs : Sound s) (hbase : s.base.Perm ((p, i) :: s'.base)) (hthreads : s'.threads = t :: s.threads) (ht : t.hold = some (p', i))
    (hworkers : s'.workers = s.workers) (hissued : s'.issued = s.issued) (hirps : s'.irps = s.irps) (hfreed : s'.freed = s.freed)
    (hstashes : s'.stashes = s.stashes) (hf : (s.irps i).Fine p → (s.irps i).Fine p') : Sound s' := by
  have hholds : s.holds.Perm ((p, i) :: (s'.base ++ s.threads.filterMap Thread.hold ++ s.workers.filterMap Worker.hold)) :=
    (hbase.append_right _).append_right _
  have hfine : (s.irps i).Fine p := hs.fine _ (hholds.mem_iff.mpr List.mem_cons_self)
  refine hs.move hholds (q := p') ?_ hissued (fun j _ => by rw [hirps]) (by rw [hirps]; exact hf hfine) (fun n => by rw [hirps, hfreed, hstashes]) ?_
  · rw [holds, hthreads, hworkers, List.filterMap_cons_some ht]
    refine List.Perm.trans (List.Perm.append_right _ List.perm_middle) ?_
    rfl
  · rw [hfreed]
    exact hs.stashes

/-- An IRP that nobody has had is given to a thread. -/
theorem sound_added (hs : Sound s) (hholds : s'.holds.Perm ((.passing, s.issued) :: s.holds)) (hissued : s'.issued = s.issued + 1)
    (hirps : s'.irps = Function.update s.irps s.issued irp) (hfreed : s'.freed = s.freed) (hstashes : s'.stashes = s.stashes)
    (hfine : irp.Fine .passing) (hnone : irp.context1 = none) : Sound s' := by
  have hlt : ∀ x ∈ s.holds, x.2 ≠ s.issued := by
    intro x hx he
    have hheld := hs.held x.2
    rw [he, if_neg (Nat.lt_irrefl _), List.count_eq_zero] at hheld
    exact hheld (he ▸ List.mem_map_of_mem hx)
  have hother : ∀ x ∈ s.holds, s'.irps x.2 = s.irps x.2 := fun x hx => by rw [hirps, Function.update_of_ne (hlt x hx)]
  have hself : s'.irps s.issued = irp := by rw [hirps, Function.update_self]
  constructor
  · intro i
    rw [(hholds.map _).count_eq, List.map_cons, List.count_cons, hs.held i, hissued]
    by_cases hi : i = s.issued
    · simp [hi]
    · have hbeq : (s.issued == i) = false := beq_eq_false_iff_ne.mpr (Ne.symm hi)
      simp only [hbeq, Bool.false_eq_true, if_false]
      split_ifs <;> omega
  · intro x hx
    rcases List.mem_cons.mp (hholds.mem_iff.mp hx) with rfl | hx
    · rw [hself]
      exact hfine
    · rw [hother x hx]
      exact hs.fine x hx
  · intro n
    have hsame : tally (fun x => (s'.irps x.2).carries n) s.holds = tally (fun x => (s.irps x.2).carries n) s.holds :=
      tally_congr fun x hx => by rw [hother x hx]
    rw [tally_perm hholds, tally_cons, hsame, hself, hfreed, hstashes, ← hs.ledger n]
    simp [Irp.carries, hnone]
  · rw [hfreed]
    exact hs.stashes

theorem sound_arrive (hs : Sound s) (major : Major) (stamp : ℕ) (h : s.next (.arrive major stamp) = some s') : Sound s' := by
  obtain rfl := Option.some.inj h
  refine sound_added hs ?_ rfl rfl rfl rfl ?_ rfl
  · refine List.Perm.trans (List.Perm.append_right _ List.perm_middle) ?_
    rfl
  · unfold Irp.Fine
    cases major
    · exact ⟨rfl, rfl⟩
    · exact ⟨rfl, rfl, stamp, rfl⟩
    · rfl

theorem sound_next (hs : Sound s) (h : s.next act = some s') : Sound s' := by
  cases act with
  | arrive major stamp => exact sound_arrive hs major stamp h
  | thread j k =>
    obtain ⟨t, hj, h⟩ := Option.bind_eq_some_iff.mp h
    obtain ⟨⟨s₁, threads⟩, ht, rfl⟩ := Option.map_eq_some_iff.mp h
    exact sound_thread hs hj ht
  | worker w k =>
    obtain ⟨a, hw, h⟩ := Option.bind_eq_some_iff.mp h
    obtain ⟨⟨s₁, b⟩, ht, rfl⟩ := Option.map_eq_some_iff.mp h
    exact sound_worker hs hw ht
  | fetchDone j st =>
    obtain ⟨i, hi, rfl⟩ := Option.map_eq_some_iff.mp h
    obtain ⟨hn, rfl⟩ := List.getElem?_eq_some_iff.mp hi
    refine sound_taken hs (p := .fetching) (t := .fetched s.fetches[j] st) ?_ rfl rfl rfl rfl rfl rfl rfl fun hf => hf.calm rfl (.inl rfl)
    have hperm := (List.getElem_cons_eraseIdx_perm hn).symm.map (Place.fetching, ·)
    rw [List.perm_iff_count]
    intro e
    have hcount := hperm.count_eq e
    simp only [base, List.map_cons, List.count_append, List.count_cons] at hcount ⊢
    omega
  | unpark j st =>
    obtain ⟨i, hi, rfl⟩ := Option.map_eq_some_iff.mp h
    obtain ⟨hn, rfl⟩ := List.getElem?_eq_some_iff.mp hi
    refine sound_taken hs (p := .parked) (t := .unparked s.parked[j] st) ?_ rfl rfl rfl rfl rfl rfl rfl fun hf => hf.calm rfl (.inl rfl)
    have hperm := (List.getElem_cons_eraseIdx_perm hn).symm.map (Place.parked, ·)
    rw [List.perm_iff_count]
    intro e
    have hcount := hperm.count_eq e
    simp only [base, List.map_cons, List.count_append, List.count_cons] at hcount ⊢
    omega
  | cancel j =>
    obtain ⟨i, hi, rfl⟩ := Option.map_eq_some_iff.mp h
    obtain ⟨hn, rfl⟩ := List.getElem?_eq_some_iff.mp hi
    refine sound_taken hs (p := .queued) (t := .discard s.irpQueue[j]) ?_ rfl rfl rfl rfl rfl rfl rfl fun hf => hf
    have hperm := (List.getElem_cons_eraseIdx_perm hn).symm.map (Place.queued, ·)
    rw [List.perm_iff_count]
    intro e
    have hcount := hperm.count_eq e
    simp only [base, List.map_cons, List.count_append, List.count_cons] at hcount ⊢
    omega
  | stop =>
    simp only [next] at h
    split_ifs at h
    obtain rfl := Option.some.inj h
    refine hs.congr ?_ rfl rfl rfl rfl
    have hworkers : (s.workers.map fun w => if w = .blocked then Worker.exited else w).filterMap Worker.hold = s.workers.filterMap Worker.hold := by
      rw [List.filterMap_map]
      congr 1
      funext w
      cases w <;> rfl
    simp only [holds, base, hworkers, List.Perm.refl]
  | drain =>
    simp only [next] at h
    split_ifs at h
    split at h
    · cases h
    · rename_i i irpQueue hq
      obtain rfl := Option.some.inj h
      refine sound_taken hs (p := .queued) (t := .discard i) ?_ rfl rfl rfl rfl rfl rfl rfl fun hf => hf
      simp only [base, hq, List.map_cons, List.cons_append, List.Perm.refl]

end State

end BlorgFS.Fsp
