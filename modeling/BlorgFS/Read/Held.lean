import BlorgFS.Read.Lifecycle

/-! Why reads are held. A read is put on a list when `ReadFairMustHold` says so, and
`ReadFairAdmitHeld` takes it off by a test of its own; the two agree unless the budget
is zero, where the second finds no room whatever is in flight. -/

namespace BlorgFS.Read

open Lib DiskCache Core Finset

variable {V : Setup} {f f' : Fair} {c : Core} {t : Task} {tasks rest : List Task} {i n : ℕ} {k : Issue} {ch : Choice}
  {s s' : State}

theorem mustHold_iff (f : Fair) (node : ℕ) (mayHold : Bool) : f.mustHold V node mayHold = true ↔
    mayHold = true ∧ V.budget ≠ 0 ∧ V.budget ≤ f.inFlightBytes ∧ (f.nodes node).readFetchesInFlight ≠ 0 ∨
      maxFetches ≤ f.inFlightFetches := by
  simp [Fair.mustHold, and_assoc]

/-- Every read on a list still has to be held, and every read-ahead has a start tag the
walk over `Held` can take. -/
structure Caused (V : Setup) (f : Fair) : Prop where
  held : ∀ i ∈ f.held, f.mustHold V (V.request i).node true = true
  waiting : ∀ i ∈ f.waiting, f.mustHold V (V.request i).node false = true
  tags : ∀ i ∈ f.held, (f.irps i).context1 < 2 ^ 64 - 1

/-- A section that takes nothing out of flight. -/
theorem Caused.grow (h : Caused V f) (hh : f'.held = f.held) (hw : f'.waiting = f.waiting)
    (ht : ∀ i, (f'.irps i).context1 = (f.irps i).context1) (hb : f.inFlightBytes ≤ f'.inFlightBytes)
    (hf : f.inFlightFetches ≤ f'.inFlightFetches)
    (hn : ∀ node, (f.nodes node).readFetchesInFlight ≤ (f'.nodes node).readFetchesInFlight) : Caused V f' := by
  have hmust : ∀ node mayHold, f.mustHold V node mayHold = true → f'.mustHold V node mayHold = true := by
    intro node mayHold hm
    rw [mustHold_iff] at hm ⊢
    have := hn node
    rcases hm with ⟨hmay, h0, hle, hne⟩ | hm
    · exact Or.inl ⟨hmay, h0, by omega, by omega⟩
    · exact Or.inr (by omega)
  refine ⟨fun i hi => ?_, fun i hi => ?_, fun i hi => ?_⟩
  · rw [hh] at hi
    exact hmust _ _ (h.held i hi)
  · rw [hw] at hi
    exact hmust _ _ (h.waiting i hi)
  · rw [hh] at hi
    rw [ht]
    exact h.tags i hi

/-! ### Admission -/

theorem Caused.admitNow (h : Caused V f) (ha : Account V f n) (hroom : f.inFlightFetches < maxFetches) :
    Caused V (f.admitNow V i) := by
  have hbytes := ha.bytes_le
  have hlen := (V.request i).length_lt
  unfold maxFetches at hroom
  refine h.grow rfl rfl (fun j => ?_) ?_ ?_ fun node => ?_
  · by_cases hj : j = i
    · subst hj
      simp [Fair.admitNow, Fair.charge, Fair.tag]
    · simp [Fair.admitNow, Fair.charge, Fair.tag, hj]
  · show f.inFlightBytes ≤ (f.inFlightBytes + (V.request i).length) % 2 ^ 64
    rw [Nat.mod_eq_of_lt (by omega)]
    omega
  · show f.inFlightFetches ≤ (f.inFlightFetches + 1) % 2 ^ 32
    rw [Nat.mod_eq_of_lt (by omega)]
    omega
  · have hle := ha.nodes_le node
    by_cases hn : node = (V.request i).node
    · subst hn
      simp only [Fair.admitNow, Fair.charge, Fair.tag, Function.update_self]
      rw [Nat.mod_eq_of_lt (by omega)]
      omega
    · simp [Fair.admitNow, Fair.charge, Fair.tag, hn]

theorem Caused.reserve (h : Caused V f) (ha : Account V f n) (fetches : ℕ) : Caused V (f.reserve i fetches).1 := by
  have hlimit := ha.limit
  unfold maxFetches at hlimit
  refine h.grow rfl rfl (fun _ => rfl) le_rfl ?_ fun _ => le_rfl
  have hle : (f.reserve i fetches).2 ≤ if f.inFlightFetches < maxFetches then maxFetches - f.inFlightFetches else 0 :=
    Nat.min_le_right _ _
  show f.inFlightFetches ≤ (f.inFlightFetches + (f.reserve i fetches).2) % 2 ^ 32
  unfold maxFetches at hle
  rw [Nat.mod_eq_of_lt (by split at hle <;> omega)]
  omega

/-- A read that must be held joins those that must. -/
theorem Caused.hold {mayHold : Bool} {item : ℕ} (h : Caused V f) (hi : i ∉ f.held)
    (hm : f.mustHold V (V.request i).node mayHold = true) (ht : mayHold = true → f.startTag V i < 2 ^ 64 - 1) :
    Caused V (f.hold V i mayHold item) := by
  have hmust : ∀ node may, f.mustHold V node may = true → (f.hold V i mayHold item).mustHold V node may = true := by
    intro node may hold
    have hnode : ((f.hold V i mayHold item).nodes node).readFetchesInFlight = (f.nodes node).readFetchesInFlight := by
      by_cases hn : node = (V.request i).node
      · subst hn
        cases mayHold <;> simp [Fair.hold, Fair.setIrp, Fair.tag]
      · cases mayHold <;> simp [Fair.hold, Fair.setIrp, Fair.tag, hn]
    have hcount : (f.hold V i mayHold item).inFlightBytes = f.inFlightBytes ∧
        (f.hold V i mayHold item).inFlightFetches = f.inFlightFetches := by
      cases mayHold <;> exact ⟨rfl, rfl⟩
    rw [mustHold_iff] at hold ⊢
    rw [hnode, hcount.1, hcount.2]
    exact hold
  have hself : ((f.hold V i mayHold item).irps i).context1 = f.startTag V i := by
    cases mayHold <;> simp [Fair.hold, Fair.setIrp]
  have hother : ∀ j, j ≠ i → ((f.hold V i mayHold item).irps j).context1 = (f.irps j).context1 := fun j hj => by
    cases mayHold <;> simp [Fair.hold, Fair.setIrp, Fair.tag, hj]
  have hold : ∀ j ∈ f.held, ((f.hold V i mayHold item).irps j).context1 < 2 ^ 64 - 1 := fun j hj => by
    rw [hother j fun he => hi (he ▸ hj)]
    exact h.tags j hj
  cases mayHold with
  | true =>
    have hlist : (f.hold V i true item).held = f.held ++ [i] := rfl
    refine ⟨fun j hj => ?_, fun j hj => hmust _ _ (h.waiting j hj), fun j hj => ?_⟩
    · rw [hlist, List.mem_append, List.mem_singleton] at hj
      rcases hj with hj | rfl
      · exact hmust _ _ (h.held j hj)
      · exact hmust _ _ hm
    · rw [hlist, List.mem_append, List.mem_singleton] at hj
      rcases hj with hj | rfl
      · exact hold j hj
      · rw [hself]
        exact ht rfl
  | false =>
    have hlist : (f.hold V i false item).waiting = f.waiting ++ [i] := rfl
    refine ⟨fun j hj => hmust _ _ (h.held j hj), fun j hj => ?_, hold⟩
    rw [hlist, List.mem_append, List.mem_singleton] at hj
    rcases hj with hj | rfl
    · exact hmust _ _ (h.waiting j hj)
    · exact hmust _ _ hm

/-! ### Release -/

/-- A file with nothing in flight and no demand waiting. -/
def Fair.Idle (V : Setup) (f : Fair) (node : ℕ) : Prop :=
  (f.nodes node).readFetchesInFlight = 0 ∧ ∀ j ∈ f.waiting, (V.request j).node ≠ node

instance (f : Fair) (node : ℕ) : Decidable (f.Idle V node) := inferInstanceAs (Decidable (_ ∧ _))

/-- The idle files that read-ahead is held for. -/
def Fair.idleFiles (V : Setup) (f : Fair) : Finset ℕ :=
  {node ∈ (f.held.map fun i => (V.request i).node).toFinset | f.Idle V node}

/-- With a zero budget: demand that waits and idle files fill what is left under the
limit, or each read-ahead that is held is the only one of an idle file. -/
def Fair.Refills (V : Setup) (f : Fair) : Prop :=
  V.budget ≠ 0 ∨ maxFetches ≤ f.inFlightFetches + f.waiting.length + #(f.idleFiles V) ∨
    f.held.length = #(f.idleFiles V)

instance (f : Fair) : Decidable (f.Refills V) := inferInstanceAs (Decidable (_ ∨ _))

/-- What goes out next is the first demand that waits, or a read-ahead the walk takes. -/
theorem next_some {start : ℕ} (h : f.next V = some (i, start)) : (∃ l, f.waiting = i :: l) ∨
    f.waiting = [] ∧ i ∈ f.held ∧ (f.inFlightBytes < V.budget ∨ (f.nodeOf V i).readFetchesInFlight = 0) := by
  unfold Fair.next at h
  split at h
  next j l hw =>
    obtain ⟨rfl, -⟩ := Prod.mk.inj (Option.some.inj h)
    exact Or.inl ⟨l, hw⟩
  next hw =>
    split at h
    next j start' he =>
      obtain ⟨rfl, rfl⟩ := Prod.mk.inj (Option.some.inj h)
      rcases Fair.foldl_better_some he with hn | ⟨hm, -, hr⟩
      · cases hn
      · exact Or.inr ⟨hw, hm, by simpa using hr⟩
    next => cases h

theorem release_nodes (ha : Account V f n) (hroom : f.inFlightFetches < maxFetches) (start node : ℕ) :
    ((f.release V i start).nodes node).readFetchesInFlight =
      (f.nodes node).readFetchesInFlight + if node = (V.request i).node then 1 else 0 := by
  have hle := ha.nodes_le node
  unfold maxFetches at hroom
  by_cases hn : node = (V.request i).node
  · subst hn
    simp only [Fair.release, Fair.charge, Function.update_self, if_true]
    exact Nat.mod_eq_of_lt (by omega)
  · simp [Fair.release, Fair.charge, hn]

/-- The lists of the fair share: each of the first `n` reads at most once, and none of
those admitted. -/
structure Queued (f : Fair) (n : ℕ) : Prop where
  nodup : (f.held ++ f.waiting).Nodup
  lt : ∀ i, i ∈ f.held ∨ i ∈ f.waiting → i < n ∧ (f.irps i).admitted = false

theorem Flow.queued (h : Flow V c tasks) : Queued c.toFair c.count where
  nodup := by
    rw [List.nodup_iff_count_le_one]
    intro i
    have hown := h.owners i
    rw [List.count_append]
    split at hown <;> omega
  lt i hi := ⟨(h.apart_list hi).2.2.2.2, (h.lists i hi).2.1⟩

theorem Queued.release (h : Queued f n) (start : ℕ) : Queued (f.release V i start) n := by
  have hsub : (f.held.erase i ++ f.waiting.erase i).Sublist (f.held ++ f.waiting) :=
    List.erase_sublist.append List.erase_sublist
  refine ⟨hsub.nodup h.nodup, fun j hj => ?_⟩
  have hne : j ≠ i := by
    rintro rfl
    rcases hj with hj | hj
    · exact (List.nodup_append.mp h.nodup).1.not_mem_erase hj
    · exact (List.nodup_append.mp h.nodup).2.1.not_mem_erase hj
  have hold : j ∈ f.held ∨ j ∈ f.waiting := hj.imp List.mem_of_mem_erase List.mem_of_mem_erase
  simpa [Fair.release, Fair.charge, hne] using h.lt j hold

/-- Whether the loop will refill the link does not change as it does. -/
theorem Account.refills_release {start : ℕ} (h : Account V f n) (hq : Queued f n) (h0 : V.budget = 0)
    (hn : f.next V = some (i, start)) (hroom : f.inFlightFetches < maxFetches) :
    (f.release V i start).Refills V ↔ f.Refills V := by
  have hnodes := @release_nodes V f i n h hroom start
  have hfetches := @release_inFlightFetches V i f hroom start
  set f' := f.release V i start
  have hheld : f'.held = f.held.erase i := rfl
  have hwaiting : f'.waiting = f.waiting.erase i := rfl
  unfold Fair.Refills
  rcases next_some hn with ⟨l, hw⟩ | ⟨hw, hm, hidle⟩
  · -- Demand: its file was not idle before and is not after.
    have hnot : i ∉ f.held := fun hm =>
      (List.nodup_append.mp hq.nodup).2.2 i hm i (by rw [hw]; exact List.mem_cons_self) rfl
    have hl : f'.waiting = l := by rw [hwaiting, hw, List.erase_cons_head]
    have hh : f'.held = f.held := by rw [hheld, List.erase_of_not_mem hnot]
    have hfiles : f'.idleFiles V = f.idleFiles V := by
      ext node
      unfold Fair.idleFiles
      rw [hh, mem_filter, mem_filter]
      refine and_congr_right fun _ => ?_
      unfold Fair.Idle
      rw [hnodes node, hl, hw]
      by_cases he : node = (V.request i).node
      · subst he
        simp
      · simp [he, Ne.symm he]
    rw [hfiles, hfetches, hl, hh, hw, List.length_cons]
    simp only [h0, ne_eq, not_true, false_or]
    refine or_congr ⟨fun hle => ?_, fun hle => ?_⟩ Iff.rfl <;> omega
  · -- Read-ahead: its file was idle and is not any more.
    have hzero : (f.nodes (V.request i).node).readFetchesInFlight = 0 := by
      rcases hidle with hlt | hz
      · rw [h0] at hlt
        omega
      · exact hz
    have hl : f'.waiting = [] := by rw [hwaiting, hw]; rfl
    have hfiles : f'.idleFiles V = (f.idleFiles V).erase (V.request i).node := by
      ext node
      unfold Fair.idleFiles
      rw [mem_filter, mem_erase, mem_filter, hheld, List.mem_toFinset, List.mem_toFinset, List.mem_map, List.mem_map]
      unfold Fair.Idle
      rw [hnodes node, hl, hw]
      by_cases he : node = (V.request i).node
      · subst he
        simp
      · simp only [he, if_false, Nat.add_zero, ne_eq, not_false_eq_true, true_and]
        refine and_congr_left fun _ => ⟨?_, ?_⟩
        · rintro ⟨j, hj, rfl⟩
          exact ⟨j, List.mem_of_mem_erase hj, rfl⟩
        · rintro ⟨j, hj, rfl⟩
          exact ⟨j, (List.mem_erase_of_ne fun hji => he (by rw [hji])).mpr hj, rfl⟩
    have hmem : (V.request i).node ∈ f.idleFiles V := by
      unfold Fair.idleFiles
      rw [mem_filter, List.mem_toFinset, List.mem_map]
      exact ⟨⟨i, hm, rfl⟩, hzero, by rw [hw]; simp⟩
    have hcard := card_erase_add_one hmem
    have hlen := List.length_erase_of_mem hm
    have hpos := List.length_pos_of_mem hm
    rw [hfiles, hfetches, hl, hheld, hlen, hw, List.length_nil]
    simp only [h0, ne_eq, not_true, false_or]
    refine or_congr ⟨fun hle => ?_, fun hle => ?_⟩ ⟨fun he => ?_, fun he => ?_⟩ <;> omega

/-- The reads `ReadFairAdmitHeld` leaves on the lists all have to be held exactly if the
link is refilled. -/
theorem Account.admitHeldFrom_caused (room : ℕ) (h : Account V f n) (hq : Queued f n)
    (hroom : f.inFlightFetches + room = maxFetches) (ht : ∀ i ∈ f.held, (f.irps i).context1 < 2 ^ 64 - 1) :
    Caused V (Fair.admitHeldFrom V room f).1 ↔ f.Refills V := by
  induction room generalizing f with
  | zero =>
    have hmust : ∀ node mayHold, f.mustHold V node mayHold = true := fun node mayHold => by
      rw [mustHold_iff]
      exact Or.inr (by omega)
    exact ⟨fun _ => Or.inr (Or.inl (by omega)), fun _ => ⟨fun _ _ => hmust _ _, fun _ _ => hmust _ _, ht⟩⟩
  | succ room ih =>
    unfold Fair.admitHeldFrom
    cases hn : f.next V with
    | none =>
      obtain ⟨hw, hno⟩ := Fair.next_none hn
      have hbusy : ∀ i ∈ f.held, V.budget ≤ f.inFlightBytes ∧ (f.nodes (V.request i).node).readFetchesInFlight ≠ 0 := by
        intro i hi
        have hnr := hno i hi
        unfold Fair.Ready at hnr
        rw [not_and, not_or] at hnr
        obtain ⟨hb, hz⟩ := hnr (ht i hi)
        exact ⟨by simpa using hb, hz⟩
      simp only
      by_cases h0 : V.budget = 0
      · have hnone : f.idleFiles V = ∅ := by
          unfold Fair.idleFiles
          rw [filter_eq_empty_iff]
          intro node hnode hidle
          obtain ⟨i, hi, rfl⟩ := List.mem_map.mp (List.mem_toFinset.mp hnode)
          exact (hbusy i hi).2 hidle.1
        constructor
        · intro hc
          refine Or.inr (Or.inr ?_)
          rw [hnone, card_empty, List.length_eq_zero_iff]
          by_contra hne
          obtain ⟨i, hi⟩ := List.exists_mem_of_ne_nil _ hne
          rcases (mustHold_iff _ _ _).mp (hc.held i hi) with ⟨-, hb, -, -⟩ | hf
          · exact hb h0
          · omega
        · rintro (hb | hle | hlen)
          · exact absurd h0 hb
          · rw [hw, hnone] at hle
            simp only [List.length_nil, card_empty] at hle
            omega
          · rw [hnone, card_empty, List.length_eq_zero_iff] at hlen
            refine ⟨fun i hi => ?_, fun i hi => ?_, ht⟩
            · rw [hlen] at hi
              cases hi
            · rw [hw] at hi
              cases hi
      · refine ⟨fun _ => Or.inl h0, fun _ => ⟨fun i hi => ?_, fun i hi => ?_, ht⟩⟩
        · rw [mustHold_iff]
          exact Or.inl ⟨rfl, h0, (hbusy i hi).1, (hbusy i hi).2⟩
        · rw [hw] at hi
          cases hi
    | some next =>
      obtain ⟨i, start⟩ := next
      have hmem := Fair.next_mem hn
      have hlt : f.inFlightFetches < maxFetches := by omega
      obtain ⟨hcount, hadm⟩ := hq.lt i hmem
      have hone : Account V (f.release V i start) n := h.release hcount hadm hlt start
      have hfetches := @release_inFlightFetches V i f hlt start
      have htags : ∀ j ∈ (f.release V i start).held, ((f.release V i start).irps j).context1 < 2 ^ 64 - 1 := by
        intro j hj
        have hsame : ((f.release V i start).irps j).context1 = (f.irps j).context1 := by
          by_cases hji : j = i
          · subst hji
            simp [Fair.release, Fair.charge]
          · simp [Fair.release, Fair.charge, hji]
        rw [hsame]
        exact ht j (List.mem_of_mem_erase hj)
      have hrec := ih hone (hq.release start) (show (f.release V i start).inFlightFetches + room = maxFetches by omega) htags
      refine hrec.trans ?_
      by_cases h0 : V.budget = 0
      · exact h.refills_release hq h0 hn hlt
      · exact ⟨fun _ => Or.inl h0, fun _ => Or.inl h0⟩

theorem Account.admitHeld_caused (h : Account V f n) (hq : Queued f n) (ht : ∀ i ∈ f.held, (f.irps i).context1 < 2 ^ 64 - 1) :
    Caused V (f.admitHeld V).1 ↔ f.Refills V :=
  h.admitHeldFrom_caused _ hq (by have := h.limit; omega) ht

theorem Caused.settle (h : Caused V f) (ha : Account V f n) (hq : Queued f n) (hi : i < n)
    (hr : (f.irps i).admitted = true → (f.uncharge V i).Refills V) : Caused V (f.settle V i).1 := by
  unfold Fair.settle
  split
  next => exact h
  next hadm =>
    rw [Bool.not_eq_false] at hadm
    have hq' : Queued (f.uncharge V i) n := by
      refine ⟨hq.nodup, fun j hj => ?_⟩
      by_cases hji : j = i
      · subst hji
        exact ⟨hi, by simp [Fair.uncharge]⟩
      · simpa [Fair.uncharge, hji] using hq.lt j hj
    refine ((ha.uncharge hi hadm).admitHeld_caused hq' fun j hj => ?_).mpr (hr hadm)
    have hsame : ((f.uncharge V i).irps j).context1 = (f.irps j).context1 := by
      by_cases hji : j = i
      · subst hji
        simp [Fair.uncharge]
      · simp [Fair.uncharge, hji]
    rw [hsame]
    exact h.tags j hj

theorem Caused.giveBack {fetches : ℕ} (h : Caused V f) (ha : Account V f n) (hq : Queued f n)
    (hi : fetches ≠ 0 → i < n) (hle : f.givenBack i + fetches ≤ f.reserved i)
    (hr : fetches ≠ 0 → (f.restore i fetches).Refills V) : Caused V (f.giveBack V i fetches).1 := by
  unfold Fair.giveBack
  split
  next => exact h
  next h0 => exact ((ha.restore (hi h0) hle).admitHeld_caused ⟨hq.nodup, hq.lt⟩ h.tags).mpr (hr h0)

/-! ### Steps -/

/-- A step of a task that leaves no read on a list without cause: read-ahead is held
with a start tag the walk can take, and a fetch that is settled or given back leaves a
link that `ReadFairAdmitHeld` refills. -/
def Core.Refillable (V : Setup) (c : Core) (ch : Choice) : Task → Prop
  | .admitAgain k _ => c.mustHold V (V.request k.irp).node (mayHold V k) = true → mayHold V k = true →
    c.startTag V k.irp < 2 ^ 64 - 1
  | .surplus k reserved fetches => wrapSub 32 reserved (extraFetches fetches) ≠ 0 →
    (c.toFair.restore k.irp (wrapSub 32 reserved (extraFetches fetches))).Refills V
  | .declined k reserved => reserved ≠ 0 → (c.toFair.restore k.irp reserved).Refills V
  | .diskComplete i _ _ fetches _ => extraFetches fetches ≠ 0 → (c.toFair.restore i (extraFetches fetches)).Refills V
  | .unissued k _ => (c.irps k.irp).admitted = true → (c.toFair.uncharge V k.irp).Refills V
  | .fetching i => (c.irps i).admitted = true → (c.toFair.uncharge V i).Refills V
  | .diskSettle i status _ refetch => status = .success ∨ ¬ (refetch = true ∧ ch.pool = true) →
    (c.irps i).admitted = true → (c.toFair.uncharge V i).Refills V
  | _ => True

instance (c : Core) (ch : Choice) : ∀ t, Decidable (c.Refillable V ch t)
  | .admitAgain k _ => inferInstanceAs (Decidable (c.mustHold V (V.request k.irp).node (mayHold V k) = true →
    mayHold V k = true → c.startTag V k.irp < 2 ^ 64 - 1))
  | .surplus k reserved fetches => inferInstanceAs (Decidable (wrapSub 32 reserved (extraFetches fetches) ≠ 0 →
    (c.toFair.restore k.irp (wrapSub 32 reserved (extraFetches fetches))).Refills V))
  | .declined k reserved => inferInstanceAs (Decidable (reserved ≠ 0 → (c.toFair.restore k.irp reserved).Refills V))
  | .diskComplete i _ _ fetches _ => inferInstanceAs (Decidable (extraFetches fetches ≠ 0 →
    (c.toFair.restore i (extraFetches fetches)).Refills V))
  | .unissued k _ => inferInstanceAs (Decidable ((c.irps k.irp).admitted = true → (c.toFair.uncharge V k.irp).Refills V))
  | .fetching i => inferInstanceAs (Decidable ((c.irps i).admitted = true → (c.toFair.uncharge V i).Refills V))
  | .diskSettle i status _ refetch => inferInstanceAs (Decidable (status = .success ∨ ¬ (refetch = true ∧ ch.pool = true) →
    (c.irps i).admitted = true → (c.toFair.uncharge V i).Refills V))
  | .offer _ | .admitFirst _ | .allocate _ | .freeItem _ _ | .reserve _ | .attempt _ _ | .issue _ _ _ _ | .fetch _
  | .complete _ _ _ _ | .part _ _ _ | .settleRead _ | .issueHeld _ | .worker _ _ => isTrue trivial

theorem Caused.setContext2 {value : Context2} (h : Caused V c.toFair) : Caused V (c.setContext2 i value).toFair := by
  refine h.grow rfl rfl (fun j => ?_) le_rfl le_rfl fun _ => le_rfl
  by_cases hj : j = i
  · subst hj
    simp [Core.setContext2, withFair, Fair.setIrp]
  · simp [Core.setContext2, withFair, Fair.setIrp, hj]

theorem step_caused (hs : Sound V c (t :: rest)) (h : Caused V c.toFair) (hr : c.Refillable V ch t) :
    Caused V (c.step V ch t).1.toFair := by
  have ha := hs.account
  have hq := hs.flow.queued
  cases t with
  | offer k =>
    simp only [step]
    split <;> exact h
  | admitFirst k =>
    simp only [step]
    split
    next => exact h
    next hm => exact h.admitNow ha (room_of_not_mustHold (Bool.eq_false_iff.mpr hm))
  | allocate k =>
    simp only [step]
    split
    next => exact h
    next =>
      unfold refuse
      cases k.caller <;> exact h
  | admitAgain k item =>
    simp only [step]
    split
    next hm =>
      rw [leave_toFair]
      exact h.hold (hs.flow.apart (i := k.irp) rfl).held hm (hr hm)
    next hm => exact h.admitNow ha (room_of_not_mustHold (Bool.eq_false_iff.mpr hm))
  | freeItem k item => exact h
  | reserve k => exact h.reserve ha _
  | attempt k reserved =>
    simp only [step]
    split <;> exact h
  | issue k extra r issued =>
    have hfair := (@issueStep_same V r k ch extra issued c).1.1
    simp only [step]
    rw [hfair]
    exact h
  | surplus k reserved fetches =>
    have hle : extraFetches fetches ≤ reserved := hs.flow.ok _ List.mem_cons_self
    have howed := hs.flow.owed k.irp
    rw [tally_cons] at howed
    simp only [Task.owes, if_pos] at howed
    simp only [step, withReleased]
    rw [leave_toFair]
    rw [wrapSub_of_le hle]
    simp only [Core.Refillable, wrapSub_of_le hle] at hr
    refine h.giveBack ha hq (fun hne => ?_) (by omega) hr
    by_contra hge
    have := (hs.flow.blank k.irp (by omega)).2.2.2
    omega
  | declined k reserved =>
    have howed := hs.flow.owed k.irp
    rw [tally_cons] at howed
    simp only [Task.owes, if_pos] at howed
    exact h.giveBack ha hq (fun _ => (hs.flow.apart (i := k.irp) rfl).lt) (by omega) hr
  | fetch k =>
    simp only [step]
    split
    next =>
      rw [leave_toFair]
      exact h.setContext2
    next => exact h.setContext2
  | unissued k status =>
    have hlt := (hs.flow.apart (i := k.irp) rfl).lt
    simp only [step]
    cases k.caller <;> exact h.settle ha hq hlt hr
  | complete i dispatcher status information =>
    refine h.grow rfl rfl (fun j => ?_) le_rfl le_rfl fun _ => le_rfl
    by_cases hj : j = i
    · subst hj
      simp [step, withFair, Fair.setIrp]
    · simp [step, withFair, Fair.setIrp, hj]
  | fetching i => exact h.settle ha hq (hs.flow.apart (i := i) rfl).lt hr
  | part r fetched length =>
    obtain ⟨read, he, -, -⟩ := partDone_steady c ch r fetched length
    simp only [step, he]
    exact h
  | settleRead r =>
    simp only [step, Core.settleRead]
    split <;> exact h
  | diskComplete i status valid fetches refetch =>
    have howed := hs.flow.owed i
    rw [tally_cons] at howed
    simp only [Task.owes, if_pos] at howed
    exact h.giveBack ha hq (fun _ => (hs.flow.apart (i := i) rfl).lt) (by omega) hr
  | diskSettle i status valid refetch =>
    have hlt := (hs.flow.apart (i := i) rfl).lt
    simp only [step]
    split
    next hok => exact h.settle ha hq hlt (hr (Or.inl hok))
    next =>
      split
      next => exact Caused.setContext2 (c := c.allocate) h
      next hno => exact h.settle ha hq hlt (hr (Or.inr hno))
  | issueHeld i => exact h
  | worker i fromDiskCache =>
    obtain ⟨n, hctx⟩ := Context2.exists_item (hs.flow.ok _ List.mem_cons_self).2
    simp only [step, hctx]
    split
    next => exact h
    next => split <;> exact h

/-! ### Runs -/

def State.Refillable (V : Setup) (s : State) : Act → Prop
  | .arrive _ => True
  | .run t ch => s.core.Refillable V ch t

instance (s : State) : ∀ act, Decidable (s.Refillable V act)
  | .arrive _ => isTrue trivial
  | .run t ch => inferInstanceAs (Decidable (s.core.Refillable V ch t))

/-- The runs all of whose steps refill the link. -/
def refillingSystem (V : Setup) : System State where
  init s := s = initial
  step s s' := ∃ act, s.Refillable V act ∧ s.next V act = some s'

theorem refillingSystem_reachable (h : (refillingSystem V).Reachable s) : (system V).Reachable s := by
  induction h with
  | init hi => exact .init hi
  | step _ hs ih =>
    obtain ⟨act, -, hn⟩ := hs
    exact ih.step ⟨act, hn⟩

theorem refillingSystem_caused (h : (refillingSystem V).Reachable s) : Caused V s.core.toFair := by
  refine System.invariant (P := fun s => Caused V s.core.toFair) (fun s hs => ?_) (fun s s' hr hc hstep => ?_) h
  · rw [show s = initial from hs]
    exact ⟨fun i hi => (by cases hi), fun i hi => (by cases hi), fun i hi => (by cases hi)⟩
  · obtain ⟨act, hok, hn⟩ := hstep
    cases act with
    | arrive ch =>
      obtain rfl := Option.some.inj hn
      unfold State.arrive
      simp only
      split
      next => exact hc
      next => split <;> exact hc
    | run t ch =>
      simp only [State.next] at hn
      split at hn
      next hm =>
        have hp := (reachable_sound (refillingSystem_reachable hr)).perm (List.perm_cons_erase hm)
        rw [← Option.some.inj hn]
        exact step_caused hp hc hok
      next => cases hn

/-- With no task left nothing is in flight. -/
theorem Sound.atRest (h : Sound V s.core s.tasks) (ht : s.tasks = []) :
    s.inFlight = ∅ ∧ ∀ i, s.core.givenBack i = s.core.reserved i := by
  have hf := h.flow
  have hdead : ∀ r, (s.core.reads r).live = false := by
    intro r
    by_contra hr
    rw [Bool.not_eq_false] at hr
    have hrefs := hf.refs r
    have hused := hf.used r hr
    rw [ht, tally_nil, if_pos hr] at hrefs
    push_cast at hrefs
    omega
  refine ⟨?_, fun i => ?_⟩
  · rw [eq_empty_iff_forall_notMem]
    intro i hi
    obtain ⟨hlt, hadm⟩ := mem_filter.mp hi
    have hflag := (hf.admitted_iff i).mpr hadm
    have hnot : (s.core.irps i).admitted = false := by
      rcases (hf.rest ht (mem_range.mp hlt)).2 with hm | hm | ⟨x, hx⟩
      · exact (hf.lists i (Or.inl hm)).2.1
      · exact (hf.lists i (Or.inr hm)).2.1
      · exact (hf.closed i (by simp [hx])).admitted
    rw [hnot] at hflag
    cases hflag
  · have howed := hf.owed i
    have hzero : s.core.readsOwe i = 0 := sum_eq_zero fun r _ => by simp [DiskRead.owes, hdead r]
    rw [ht, tally_nil] at howed
    omega

/-- A read that must be held waits for a fetch in flight. -/
theorem Sound.inFlight_of_mustHold {mayHold : Bool} {node : ℕ} (h : Sound V s.core s.tasks)
    (hm : s.core.mustHold V node mayHold = true) :
    s.tasks ≠ [] ∧ ∃ j, j ∈ s.inFlight ∨ s.core.givenBack j < s.core.reserved j := by
  obtain ⟨-, hnodes, hfetches⟩ := h.counts
  have hex : ∃ j, j ∈ s.inFlight ∨ s.core.givenBack j < s.core.reserved j := by
    by_contra hno
    have hempty : s.inFlight = ∅ := eq_empty_iff_forall_notMem.mpr fun j hj => hno ⟨j, Or.inl hj⟩
    have hsum : ∑ i ∈ range s.core.count, (s.core.reserved i - s.core.givenBack i) = 0 := sum_eq_zero fun j _ => by
      by_contra hne
      exact hno ⟨j, Or.inr (by omega)⟩
    rcases (mustHold_iff _ _ _).mp hm with ⟨-, -, -, hne⟩ | hle
    · rw [hnodes node, hempty] at hne
      exact hne rfl
    · rw [hfetches, hempty, hsum] at hle
      simp [maxFetches] at hle
  refine ⟨fun ht => ?_, hex⟩
  obtain ⟨hempty, hpaid⟩ := h.atRest ht
  obtain ⟨j, hj | hj⟩ := hex
  · rw [hempty] at hj
    cases hj
  · have := hpaid j
    omega

/-- In every run whose steps refill the link, every read on a list has to be held, for
its own file and class; and while one is, something is in flight that is not settled or
not given back, and has still to run. -/
theorem held_for_cause (h : (refillingSystem V).Reachable s) :
    (∀ i ∈ s.core.held, s.core.mustHold V (V.request i).node true = true) ∧
    (∀ i ∈ s.core.waiting, s.core.mustHold V (V.request i).node false = true) ∧
    (s.core.held ≠ [] ∨ s.core.waiting ≠ [] → s.tasks ≠ [] ∧
      ∃ j, j ∈ s.inFlight ∨ s.core.givenBack j < s.core.reserved j) := by
  have hc := refillingSystem_caused h
  have hs := reachable_sound (refillingSystem_reachable h)
  refine ⟨hc.held, hc.waiting, ?_⟩
  rintro (hne | hne)
  · obtain ⟨i, hi⟩ := List.exists_mem_of_ne_nil _ hne
    exact hs.inFlight_of_mustHold (hc.held i hi)
  · obtain ⟨i, hi⟩ := List.exists_mem_of_ne_nil _ hne
    exact hs.inFlight_of_mustHold (hc.waiting i hi)

/-! ### Two runs -/

/-- Reads of one file, a block each, of which those from number `demand` on are
read-ahead. -/
def readAheadFrom (demand budgetKb : ℕ) (h : budgetKb ≤ (2 ^ 32 - 1) / 1024) : Setup where
  budgetKb := budgetKb
  request i := ⟨0, 0, blockSize, demand ≤ i, by decide, by decide⟩
  budgetKb_le := h

def noBudget : Setup := readAheadFrom 32 0 (by decide)

def smallBudget : Setup := readAheadFrom 1 4 (by decide)

/-- Read `i` comes, is admitted and goes to the server. -/
def fetched (i : ℕ) : List Act :=
  let k : Issue := ⟨i, .dispatcher, blockSize, 0⟩
  let ch := { pinning [] with slots := none }
  [.arrive ch, .run (.offer k) ch, .run (.admitFirst k) ch, .run (.fetch k) ch]

/-- Read `i` comes and is held. -/
def putOff (i : ℕ) : List Act :=
  let k : Issue := ⟨i, .dispatcher, blockSize, 0⟩
  let ch := { pinning [] with slots := none }
  [.arrive ch, .run (.offer k) ch, .run (.admitFirst k) ch, .run (.allocate k) ch, .run (.admitAgain k 0) ch]

/-- Without a budget, read-ahead that met the fetch limit stays held when a fetch of its
file is settled and there is room again. -/
theorem held_without_cause : ∃ s, (system noBudget).Reachable s ∧ 32 ∈ s.core.held ∧
    s.core.mustHold noBudget (noBudget.request 32).node true = false := by
  set acts := (List.range 32).flatMap fetched ++ putOff 32 ++ [.run (.fetching 0) (pinning [])]
  have hsome : (run (State.next noBudget) initial acts).isSome := by decide +kernel
  obtain ⟨s, hs⟩ := Option.isSome_iff_exists.mp hsome
  have hst : ((run (State.next noBudget) initial acts).map fun s =>
      (s.core.held, s.core.mustHold noBudget (noBudget.request 32).node true)) = some ([32], false) := by decide +kernel
  rw [hs, Option.map_some, Option.some.injEq, Prod.mk.injEq] at hst
  exact ⟨s, reachable_run hs, by rw [hst.1]; exact List.mem_singleton_self 32, hst.2⟩

/-- `next`, for the steps that refill the link. -/
def State.nextRefilling (V : Setup) (s : State) (act : Act) : Option State :=
  if s.Refillable V act then s.next V act else none

theorem held_for_cause_smallBudget : ∃ s, run (State.nextRefilling smallBudget) initial (fetched 0 ++ putOff 1) = some s ∧
    s.core.held = [1] ∧ s.core.mustHold smallBudget (smallBudget.request 1).node true = true ∧ s.tasks ≠ [] := by
  have hsome : (run (State.nextRefilling smallBudget) initial (fetched 0 ++ putOff 1)).isSome := by decide +kernel
  obtain ⟨s, hs⟩ := Option.isSome_iff_exists.mp hsome
  have hheld : (run (State.nextRefilling smallBudget) initial (fetched 0 ++ putOff 1)).map (fun s => s.core.held) =
      some [1] := by decide +kernel
  rw [hs, Option.map_some, Option.some.injEq] at hheld
  have h0 : (refillingSystem smallBudget).Reachable initial := .init rfl
  have hstep : ∀ s act s', State.nextRefilling smallBudget s act = some s' → (refillingSystem smallBudget).step s s' := by
    intro s act s' hn
    unfold State.nextRefilling at hn
    split at hn
    next hok => exact ⟨act, hok, hn⟩
    next => cases hn
  obtain ⟨hcause, -, hsome⟩ := held_for_cause (h0.run hstep hs)
  exact ⟨s, hs, hheld, hcause 1 (by simp [hheld]), (hsome (Or.inl (by simp [hheld]))).1⟩

end BlorgFS.Read
