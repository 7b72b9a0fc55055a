import BlorgFS.Read.Tags
import Mathlib.Algebra.BigOperators.Group.Finset.Piecewise
import Mathlib.Algebra.Order.Group.Abs
import Mathlib.Algebra.Order.Ring.Int
import Mathlib.Tactic.Ring

/-! Equal bytes. While every fetch goes out from `Held` with room in the budget and the virtual
time is behind all that is held, two files that always have read-ahead held get the same bytes, up
to a read of each. -/

namespace BlorgFS.Read

open Lib Core Finset

variable {V : Setup} {f f' : Fair} {i n node a b : ℕ} {s s' s₀ : State}

/-! ### Bytes admitted -/

/-- The bytes of a file's first `n` reads that were admitted, as often as they were. -/
def Fair.admittedBytes (V : Setup) (f : Fair) (n node : ℕ) : ℕ :=
  ∑ i ∈ range n with V.flow i = node, (f.irps i).admissions * V.bytes i

def State.admittedBytes (V : Setup) (s : State) (node : ℕ) : ℕ := s.core.toFair.admittedBytes V s.core.count node

theorem admittedBytes_idle (h : f.Idles f') : f'.admittedBytes V n = f.admittedBytes V n := by
  funext node
  exact sum_congr rfl fun i _ => by rw [h.admissions]

theorem admittedBytes_hold (f : Fair) (i : ℕ) (mayHold : Bool) (item : ℕ) : (f.hold V i mayHold item).admittedBytes V n = f.admittedBytes V n := by
  have hsame : ∀ j, ((f.hold V i mayHold item).irps j).admissions = (f.irps j).admissions := fun j => by
    by_cases hj : j = i <;> cases mayHold <;> simp [Fair.hold, Fair.setIrp, Fair.tag, hj]
  funext node
  exact sum_congr rfl fun j _ => by rw [hsame]

theorem release_admissions (f : Fair) (i start j : ℕ) :
    ((f.release V i start).irps j).admissions = (f.irps j).admissions + if j = i then 1 else 0 := by
  by_cases hj : j = i <;> simp [Fair.release, Fair.charge, hj]

theorem admittedBytes_release (hi : i < n) (start : ℕ) : (f.release V i start).admittedBytes V n =
    Function.update (f.admittedBytes V n) (V.flow i) (f.admittedBytes V n (V.flow i) + V.bytes i) := by
  funext node
  have hsplit : (f.release V i start).admittedBytes V n node =
      f.admittedBytes V n node + ∑ j ∈ range n with V.flow j = node, if i = j then V.bytes j else 0 := by
    unfold Fair.admittedBytes
    rw [← sum_add_distrib]
    refine sum_congr rfl fun j _ => ?_
    rw [release_admissions, if_congr eq_comm rfl rfl]
    split <;> ring
  rw [hsplit, sum_ite_eq]
  by_cases hnode : node = V.flow i
  · subst hnode
    have hmem : i ∈ ({j ∈ range n | V.flow j = V.flow i} : Finset ℕ) := mem_filter.mpr ⟨mem_range.mpr hi, rfl⟩
    rw [Function.update_self, if_pos hmem]
  · have hmem : i ∉ ({j ∈ range n | V.flow j = node} : Finset ℕ) := fun hm => hnode (mem_filter.mp hm).2.symm
    rw [Function.update_of_ne hnode, if_neg hmem, Nat.add_zero]

theorem admittedBytes_more (hnew : ¬ f.Charged n) : f.admittedBytes V (n + 1) = f.admittedBytes V n := by
  have hzero : (f.irps n).admissions = 0 := by
    by_contra hne
    exact hnew (Or.inl hne)
  funext node
  unfold Fair.admittedBytes
  rw [range_add_one, filter_insert]
  split
  · rw [sum_insert (by simp), hzero, Nat.zero_mul, Nat.zero_add]
  · rfl

/-! ### Continuations -/

/-- No demand is held, and what is admitted goes out from a list with room in the budget. -/
def backlogged (V : Setup) : Guard where
  allow _ _ := False
  hold _ _ mayHold := mayHold = true
  release f _ _ := f.inFlightBytes < V.budget

instance (V : Setup) (f : Fair) (i start : ℕ) : Decidable ((backlogged V).release f i start) := inferInstanceAs (Decidable (_ < _))

/-- Some read-ahead of the file is held. -/
def State.HasHeld (V : Setup) (s : State) (node : ℕ) : Prop := ∃ i ∈ s.core.held, (V.request i).node = node

/-- A step without demand and without an admission but from `Held` with room, after which each of
the files still has read-ahead held. -/
def BackloggedStep (V : Setup) (files : Set ℕ) (s s' : State) : Prop :=
  (∃ act, s.Obeys V (backlogged V) act ∧ s.next V act = some s') ∧ ∀ node ∈ files, s'.HasHeld V node

/-- With room in the budget and no demand waiting, the read let go has the least tag of all. -/
theorem next_least {start : ℕ} (hn : f.next V = some (i, start)) (hw : f.waiting = []) (hroom : f.inFlightBytes < V.budget) :
    f.tags.Least i := by
  rcases Fair.next_cases V f with hnone | ⟨j, hj, ⟨rest, hrest⟩ | ⟨-, hfirst⟩⟩
  · rw [hnone] at hn
    cases hn
  · rw [hw] at hrest
    cases hrest
  · obtain ⟨rfl, -⟩ := Prod.mk.inj (Option.some.inj (hj.symm.trans hn))
    refine ⟨Or.inl hfirst.mem, fun y hy => ?_⟩
    have hy : y ∈ f.held := by
      rcases hy with hy | hy
      · exact hy
      · rw [hw] at hy
        cases hy
    obtain ⟨front, back, hheld, -, hfront, hback⟩ := hfirst
    rw [hheld] at hy
    rcases List.mem_append.mp hy with hy | hy
    · exact (hfront y hy (Or.inl hroom)).le
    · rcases List.mem_cons.mp hy with rfl | hy
      · exact le_rfl
      · exact hback y hy (Or.inl hroom)

theorem ahead_of_held (hw : f.waiting = []) (ha : ∀ i ∈ f.held, f.virtualTime ≤ f.heldTag i) : f.tags.Ahead := by
  rintro i (hi | hi)
  · exact ha i hi
  · rw [hw] at hi
    cases hi

/-- How the share stands in a continuation from `f₀`, where `w₀` had been admitted: if the file
still waits, it has come as far as it was served. -/
structure Backlog (V : Setup) (f₀ : Fair) (w₀ : ℕ → ℕ) (node n : ℕ) (f : Fair) : Prop where
  tagged : Tagged V n f
  waiting : f.waiting = []
  ahead : f.tags.Ahead
  advanced : f.tags.Waits V.flow node → Tags.Advanced V.flow f₀.tags w₀ f.tags (f.admittedBytes V n) node

variable {f₀ : Fair} {w₀ : ℕ → ℕ}

theorem Backlog.kept (hn : V.asked n < 2 ^ 64) :
    Kept V (backlogged V) n (fun f => Backlog V f₀ w₀ node n f ∧ f.tags.Waits V.flow node) (Backlog V f₀ w₀ node n) where
  idle f f' hf h := by
    obtain ⟨h, -⟩ := h
    have htags := Fair.tags_quiet hf.toQuiet
    refine ⟨h.tagged.idle hf, hf.waiting.trans h.waiting, htags ▸ h.ahead, ?_⟩
    rw [htags, admittedBytes_idle hf]
    exact h.advanced
  allow _ _ _ hno _ := hno.elim
  hold f i mayHold item hi hmay h := by
    obtain ⟨h, hwaits⟩ := h
    obtain rfl : mayHold = true := hmay
    have hout : i ∉ f.tags.pending := by
      rintro (hh | hw)
      · exact hi.held hh
      · exact hi.waiting hw
    have htags := Fair.tags_hold true item (h.tagged.no_wrap hi hn)
    refine ⟨h.tagged.hold hi true item, h.waiting, htags ▸ h.ahead.join hout, fun _ => ?_⟩
    rw [htags, admittedBytes_hold]
    exact (h.advanced hwaits).join (h.tagged.chained hn) hout
  release f i start hq hnext hroom h := by
    obtain rfl := next_start hnext
    have hleast := next_least hnext h.waiting hroom
    have hi := (hq.lt i (Fair.next_mem hnext)).1
    have htags := Fair.tags_release (V := V) (i := i) hq.nodup
    have hwaiting : (f.release V i (f.heldTag i)).waiting = [] := by
      show f.waiting.erase i = []
      rw [h.waiting]
      rfl
    refine ⟨h.tagged.release hq hnext, hwaiting, htags ▸ h.ahead.serve hleast, fun hw => ?_⟩
    rw [htags] at hw ⊢
    rw [admittedBytes_release hi]
    exact (h.advanced hw.of_serve).serve (h.tagged.chained hn) V.bytes_pos h.ahead hleast hw

theorem Backlog.more (h : Backlog V f₀ w₀ node n f) (hnew : ¬ f.Charged n) : Backlog V f₀ w₀ node (n + 1) f := by
  refine ⟨h.tagged.more hnew, h.waiting, h.ahead, ?_⟩
  rw [admittedBytes_more hnew]
  exact h.advanced

theorem State.HasHeld.waits (h : s.HasHeld V node) : s.core.toFair.tags.Waits V.flow node := by
  obtain ⟨i, hi, hk⟩ := h
  exact ⟨i, Or.inl hi, hk⟩

theorem BackloggedStep.backlog {files : Set ℕ} (hr : (system V).Reachable s) (hstep : BackloggedStep V files s s')
    (hn : V.asked s'.core.count < 2 ^ 64) (hnode : s.HasHeld V node)
    (h : Backlog V f₀ w₀ node s.core.count s.core.toFair) : Backlog V f₀ w₀ node s'.core.count s'.core.toFair := by
  obtain ⟨⟨act, ho, hnext⟩, -⟩ := hstep
  have hs := reachable_sound hr
  rcases next_count hnext with hc | ⟨hc, hf⟩
  · rw [hc] at hn ⊢
    exact (Backlog.kept hn).next hs (fun _ _ hp => hp.1) ho hnext ⟨h, hnode.waits⟩
  · rw [hc, hf]
    exact h.more hs.flow.blank_not_charged

/-- A continuation from a reachable state in which nothing held is behind the virtual time. -/
theorem backlog_run {files : Set ℕ} (hr : (system V).Reachable s) (hw : s.core.waiting = [])
    (ha : ∀ i ∈ s.core.held, s.core.virtualTime ≤ s.core.heldTag i) (hheld : ∀ node ∈ files, s.HasHeld V node)
    (hrun : Relation.ReflTransGen (BackloggedStep V files) s s') (hn : V.asked s'.core.count < 2 ^ 64) :
    (system V).Reachable s' ∧ s.core.count ≤ s'.core.count ∧ ∀ node ∈ files, s'.HasHeld V node ∧
      Backlog V s.core.toFair (s.admittedBytes V) node s'.core.count s'.core.toFair := by
  induction hrun with
  | refl =>
    exact ⟨hr, le_rfl, fun node hnode => ⟨hheld node hnode, reachable_tagged hr, hw, ahead_of_held hw ha, fun hwaits => hwaits.advanced⟩⟩
  | @tail s₁ s₂ _ hstep ih =>
    obtain ⟨⟨act, -, hnext⟩, hheld'⟩ := id hstep
    have hle : s₁.core.count ≤ s₂.core.count := by
      rcases next_count hnext with hc | ⟨hc, -⟩ <;> omega
    obtain ⟨hr₁, hcount, hb⟩ := ih ((Setup.asked_mono hle).trans_lt hn)
    refine ⟨hr₁.step ⟨act, hnext⟩, hcount.trans hle, fun node hnode => ⟨hheld' node hnode, ?_⟩⟩
    obtain ⟨hheld₁, hb₁⟩ := hb node hnode
    exact hstep.backlog hr₁ hn hheld₁ hb₁

/-- The bytes admitted for a file from one state to another. -/
def State.admittedSince (V : Setup) (s s' : State) (node : ℕ) : ℤ := s'.admittedBytes V node - s.admittedBytes V node

/-- From a state in which no demand waits and nothing held is behind the virtual time, over every
continuation without demand in which what is admitted goes out from `Held` with room in the
budget, and as long as fewer than `2 ^ 64` bytes have been asked for: two files that have
read-ahead held throughout are admitted the same bytes, up to the longest read of each. -/
theorem fair_bytes (hr : (system V).Reachable s) (hw : s.core.waiting = [])
    (ha : ∀ i ∈ s.core.held, s.core.virtualTime ≤ s.core.heldTag i) (hheld : ∀ node ∈ ({a, b} : Set ℕ), s.HasHeld V node)
    (hrun : Relation.ReflTransGen (BackloggedStep V {a, b}) s s') (hn : V.asked s'.core.count < 2 ^ 64) :
    |s.admittedSince V s' a - s.admittedSince V s' b| ≤ V.largest s'.core.count a + V.largest s'.core.count b := by
  obtain ⟨-, hcount, hb⟩ := backlog_run hr hw ha hheld hrun hn
  obtain ⟨hwa, hka⟩ := hb a (Or.inl rfl)
  obtain ⟨hwb, hkb⟩ := hb b (Or.inr rfl)
  have hstart : s.core.toFair.tags.Chained V.flow V.bytes (V.largest s'.core.count) :=
    ((reachable_tagged hr).chained ((Setup.asked_mono hcount).trans_lt hn)).mono (Setup.largest_mono hcount)
  have hahead := ahead_of_held hw ha
  have hend := hka.tagged.chained hn
  have hab := (hka.advanced hwa.waits).alike hstart hahead hend hka.ahead V.bytes_pos (hkb.advanced hwb.waits)
  have hba := (hkb.advanced hwb.waits).alike hstart hahead hend hka.ahead V.bytes_pos (hka.advanced hwa.waits)
  unfold State.admittedSince State.admittedBytes
  rw [abs_le]
  unfold State.admittedBytes at hab hba
  constructor <;> omega

/-! ### A run -/

/-- Reads of `bytes` each: `demand` of them of one file, and then read-ahead of two others. -/
def demandFirst (bytes demand : ℕ) (h0 : 0 < bytes) (h1 : bytes < 2 ^ 32) : Setup where
  budgetKb := (2 ^ 32 - 1) / 1024
  request i := ⟨if i < demand then 0 else if i = demand + 1 ∨ i = demand + 6 then 2 else 1, 0, bytes, demand ≤ i, h0, h1⟩
  budgetKb_le := le_rfl

/-- Everything goes well, without the disk cache. -/
def aside (bytes : ℕ) : Choice := ⟨true, bytes, none, true, 0, bytes, true⟩

/-- Read `i` comes and goes to the server. -/
def sent (bytes i : ℕ) : List Act :=
  let k : Issue := ⟨i, .dispatcher, bytes, 0⟩
  let ch := aside bytes
  [.arrive ch, .run (.offer k) ch, .run (.admitFirst k) ch, .run (.fetch k) ch]

/-- Read `i` comes and is held, with work item `item`. -/
def queued (bytes i item : ℕ) : List Act :=
  let k : Issue := ⟨i, .dispatcher, bytes, 0⟩
  let ch := aside bytes
  [.arrive ch, .run (.offer k) ch, .run (.admitFirst k) ch, .run (.allocate k) ch, .run (.admitAgain k item) ch]

/-- A read of each of the two files at the server, and behind them four of one and one of the
other. -/
def queueUp (bytes demand : ℕ) : List Act :=
  sent bytes demand ++ sent bytes (demand + 1) ++ queued bytes (demand + 2) 0 ++ queued bytes (demand + 3) 1 ++
    queued bytes (demand + 4) 2 ++ queued bytes (demand + 5) 3 ++ queued bytes (demand + 6) 4

/-- A read that was released goes to the server. -/
def resent (bytes i : ℕ) : List Act :=
  let k : Issue := ⟨i, .released true, bytes, 0⟩
  let ch := aside bytes
  [.run (.issueHeld i) ch, .run (.worker i true) ch, .run (.offer k) ch, .run (.fetch k) ch]

instance (s : State) (node : ℕ) : Decidable (s.HasHeld V node) := inferInstanceAs (Decidable (∃ i ∈ s.core.held, _))

instance : ∀ f i, Decidable ((backlogged V).allow f i) := fun _ _ => isFalse id

instance : ∀ f i mayHold, Decidable ((backlogged V).hold f i mayHold) := fun _ _ mayHold => inferInstanceAs (Decidable (mayHold = true))

/-- `next`, for the steps of a continuation. -/
def State.nextBacklogged (V : Setup) (a b : ℕ) (s : State) (act : Act) : Option State :=
  (s.nextObeying (backlogged V) V act).filter fun s' => s'.HasHeld V a ∧ s'.HasHeld V b

theorem State.nextBacklogged_step {act : Act} (h : s.nextBacklogged V a b act = some s') : BackloggedStep V {a, b} s s' := by
  obtain ⟨hnext, hheld⟩ := Option.filter_eq_some_iff.mp h
  obtain ⟨ha, hb⟩ := of_decide_eq_true hheld
  refine ⟨⟨act, State.nextObeying_some _ hnext⟩, ?_⟩
  rintro node (rfl | rfl)
  · exact ha
  · exact hb

/-- The first of the files is served until it has nothing else held but one read. -/
def letGo (bytes demand : ℕ) : List Act :=
  .run (.fetching demand) (aside bytes) :: resent bytes (demand + 2) ++ .run (.fetching (demand + 2)) (aside bytes) ::
    resent bytes (demand + 3) ++ [.run (.fetching (demand + 3)) (aside bytes)]

/-- What a continuation starts from. -/
def State.Backlogs (V : Setup) (a b : ℕ) (s : State) : Prop :=
  s.core.waiting = [] ∧ (∀ i ∈ s.core.held, s.core.virtualTime ≤ s.core.heldTag i) ∧ s.HasHeld V a ∧ s.HasHeld V b

instance (s : State) : Decidable (s.Backlogs V a b) := inferInstanceAs (Decidable (_ ∧ _ ∧ _ ∧ _))

variable {bytes demand : ℕ} {h0 : 0 < bytes} {h1 : bytes < 2 ^ 32}

/-- The bytes admitted of the two files that read ahead. -/
theorem demandFirst_admitted (f : Fair) : f.admittedBytes (demandFirst bytes demand h0 h1) (demand + 7) 1 =
      ((f.irps demand).admissions + (f.irps (demand + 2)).admissions + (f.irps (demand + 3)).admissions +
        (f.irps (demand + 4)).admissions + (f.irps (demand + 5)).admissions) * bytes ∧
    f.admittedBytes (demandFirst bytes demand h0 h1) (demand + 7) 2 =
      ((f.irps (demand + 1)).admissions + (f.irps (demand + 6)).admissions) * bytes := by
  have hone : ({i ∈ range (demand + 7) | (demandFirst bytes demand h0 h1).flow i = 1} : Finset ℕ) =
      {demand, demand + 2, demand + 3, demand + 4, demand + 5} := by
    ext i
    rw [mem_filter, mem_range]
    simp only [mem_insert, mem_singleton, Setup.flow, demandFirst]
    split_ifs
    · rw [and_false, false_iff]
      omega
    · omega
    · omega
  have htwo : ({i ∈ range (demand + 7) | (demandFirst bytes demand h0 h1).flow i = 2} : Finset ℕ) = {demand + 1, demand + 6} := by
    ext i
    rw [mem_filter, mem_range]
    simp only [mem_insert, mem_singleton, Setup.flow, demandFirst]
    split_ifs
    · rw [and_false, false_iff]
      omega
    · omega
    · omega
  have hbytes : ∀ i, (demandFirst bytes demand h0 h1).bytes i = bytes := fun _ => rfl
  unfold Fair.admittedBytes
  rw [hone, htwo]
  constructor <;> simp [hbytes] <;> ring

/-- How often each of the last seven reads was admitted. -/
def State.lastAdmissions (s : State) (demand : ℕ) : List ℕ := [0, 1, 2, 3, 4, 5, 6].map fun k => (s.core.irps (demand + k)).admissions

theorem demandFirst_admittedBytes {a₀ a₁ a₂ a₃ a₄ a₅ a₆ : ℕ} (hcount : s.core.count = demand + 7)
    (hadm : s.lastAdmissions demand = [a₀, a₁, a₂, a₃, a₄, a₅, a₆]) :
    s.admittedBytes (demandFirst bytes demand h0 h1) 1 = (a₀ + a₂ + a₃ + a₄ + a₅) * bytes ∧
      s.admittedBytes (demandFirst bytes demand h0 h1) 2 = (a₁ + a₆) * bytes := by
  simp only [State.lastAdmissions, List.map_cons, List.map_nil, List.cons.injEq, and_true, Nat.add_zero] at hadm
  obtain ⟨rfl, rfl, rfl, rfl, rfl, rfl, rfl⟩ := hadm
  unfold State.admittedBytes
  rw [hcount]
  exact demandFirst_admitted s.core.toFair

/-- Two files that read ahead, and no demand before them. -/
def twoFiles : Setup := demandFirst (2 ^ 31) 0 (by decide) (by decide)

theorem fair_bytes_twoFiles : ∃ s s', (system twoFiles).Reachable s ∧
    |s.admittedSince twoFiles s' 1 - s.admittedSince twoFiles s' 2| ≤ twoFiles.largest s'.core.count 1 + twoFiles.largest s'.core.count 2 := by
  have hrun : ((run (State.next twoFiles) initial (queueUp (2 ^ 31) 0)).bind fun s =>
      (run (State.nextBacklogged twoFiles 1 2) s [.run (.fetching 0) (aside (2 ^ 31))]).map fun s' =>
        (decide (s.Backlogs twoFiles 1 2), s'.core.count)) = some (true, 7) := by decide +kernel
  obtain ⟨s, hs, hrest⟩ := Option.bind_eq_some_iff.mp hrun
  obtain ⟨s', hs', hfacts⟩ := Option.map_eq_some_iff.mp hrest
  obtain ⟨hback, hcount⟩ := Prod.mk.inj hfacts
  obtain ⟨hw, ha, h1, h2⟩ := of_decide_eq_true hback
  have hcont : ∀ s act s', State.nextBacklogged twoFiles 1 2 s act = some s' → BackloggedStep twoFiles {1, 2} s s' :=
    fun _ _ _ => State.nextBacklogged_step
  have hpath := reflTransGen_run hcont hs'
  refine ⟨s, s', reachable_run hs, fair_bytes (reachable_run hs) hw ha ?_ hpath ?_⟩
  · rintro node (rfl | rfl)
    · exact h1
    · exact h2
  · rw [hcount]
    decide +kernel

/-! ### Tags that wrap -/

attribute [ext] Fair

theorem admitHeld_nil (hh : f.held = []) (hw : f.waiting = []) : f.admitHeld V = (f, []) := by
  have hnone : f.next V = none := by
    unfold Fair.next Fair.earliest
    rw [hw, hh]
    rfl
  unfold Fair.admitHeld
  cases maxFetches - f.inFlightFetches with
  | zero => rfl
  | succ room =>
    unfold Fair.admitHeldFrom
    rw [hnone]

/-- The only task there is takes a step. -/
theorem reachable_only {t : Task} {ch : Choice} (h : (system V).Reachable ⟨c, [t]⟩) (hm : (c.step V ch t).1.misuse = c.misuse) :
    (system V).Reachable ⟨(c.step V ch t).1, (c.step V ch t).2⟩ := by
  have hnext : State.next V ⟨c, [t]⟩ (.run t ch) = some ⟨{ (c.step V ch t).1 with misuse := c.misuse || c.misused t }, (c.step V ch t).2⟩ := by
    unfold State.next
    simp
  have hs := h.step ⟨_, hnext⟩
  have hbefore := (reachable_sound h).flow.misuse
  have hafter : (c.misuse || c.misused t) = false := (reachable_sound hs).flow.misuse
  rw [hafter, ← hbefore, ← hm] at hs
  exact hs

/-- Nothing is in flight, and read `i` is the next to come. -/
structure Alone (V : Setup) (c : Core) (i : ℕ) : Prop where
  count : c.count = i
  held : c.held = []
  waiting : c.waiting = []
  bytes : c.inFlightBytes = 0
  fetches : c.inFlightFetches = 0
  node : (c.nodes (V.flow i)).readFetchesInFlight = 0
  irp : c.irps i = ⟨false, 0, .empty, [], 0, 0⟩
  underflow : c.underflow = false

/-- The fair share once read `i` was fetched with nothing else in flight. -/
def Fair.afterFetch (V : Setup) (f : Fair) (i : ℕ) : Fair :=
  { f with
    virtualTime := f.startTag V i
    nodes := Function.update f.nodes (V.flow i) ⟨0, (f.startTag V i + V.bytes i) % 2 ^ 64⟩
    irps := Function.update f.irps i ⟨false, 0, .stamp, [⟨false, .success, V.bytes i⟩], 1, 1⟩ }

/-- A read that meets no trouble outside, and that the disk cache does not hold. -/
structure Plain (V : Setup) (ch : Choice) (i : ℕ) : Prop where
  pool : ch.pool = true
  ok : ch.ok = true
  slots : ch.slots = none
  size : (V.request i).length ≤ ch.size
  bytes : ch.bytes = V.bytes i

theorem trim_plain {ch : Choice} (hch : Plain V ch i) (ho : (V.request i).offset = 0) : trim (V.request i) ch.size = some (V.bytes i) := by
  have hlt := (V.request i).length_lt
  have hpos := (V.request i).length_pos
  have hsize := hch.size
  unfold trim
  rw [ho, if_neg (by omega), if_neg (by omega), if_neg (by omega)]
  rfl

theorem reachable_fetching {ch : Choice} (h : (system V).Reachable ⟨c, []⟩) (ha : Alone V c i) (hch : Plain V ch i)
    (hspec : (V.request i).speculative = false) (ho : (V.request i).offset = 0) :
    (system V).Reachable ⟨((({ c with count := i + 1 } : Core).withFair (c.admitNow V i)).setContext2 i .stamp).returns i .pending, [.fetching i]⟩ := by
  set k : Issue := ⟨i, .dispatcher, V.bytes i, 0⟩ with hk
  set c₁ : Core := { c with count := i + 1 } with hc₁
  have h₁ : (system V).Reachable ⟨c₁, [.offer k]⟩ := by
    refine h.step ⟨.arrive ch, ?_⟩
    simp only [State.next, State.arrive, ha.count, trim_plain hch ho, hch.pool, if_true, hc₁, hk]
  have h₂ : (system V).Reachable ⟨c₁, [.admitFirst k]⟩ := by
    have hstep : c₁.step V ch (.offer k) = (c₁, [.admitFirst k]) := by
      simp only [step, plan, hch.slots]
      rfl
    have := @reachable_only V c₁ _ ch h₁ (by rw [hstep])
    rwa [hstep] at this
  have hmay : c₁.mustHold V (V.request i).node (mayHold V k) = false := by
    simp [Fair.mustHold, mayHold, hk, hspec, hc₁, ha.fetches, maxFetches]
  have h₃ : (system V).Reachable ⟨c₁.withFair (c₁.admitNow V i), [.fetch k]⟩ := by
    have hstep : c₁.step V ch (.admitFirst k) = (c₁.withFair (c₁.admitNow V i), [.fetch k]) := by
      simp only [step, hk]
      rw [if_neg (by rw [Bool.not_eq_true]; exact hmay)]
      simp [admittedTo]
    have := @reachable_only V c₁ _ ch h₂ (by rw [hstep]; rfl)
    rwa [hstep] at this
  have hstep : (c₁.withFair (c₁.admitNow V i)).step V ch (.fetch k) =
      (((c₁.withFair (c₁.admitNow V i)).setContext2 i .stamp).returns i .pending, [.fetching i]) := by
    simp only [step, hch.ok, if_true]
    rfl
  have := @reachable_only V _ _ ch h₃ (by rw [hstep]; rfl)
  rwa [hstep] at this

theorem reachable_answered {ch : Choice} (h : (system V).Reachable ⟨c, [.fetching i]⟩) (hch : Plain V ch i) (hadm : (c.irps i).admitted = true)
    (hheld : c.held = []) (hwaiting : c.waiting = []) :
    (system V).Reachable ⟨(c.withFair (c.uncharge V i)).withFair ((c.uncharge V i).setIrp i
      { (c.uncharge V i).irps i with completions := ⟨false, .success, V.bytes i⟩ :: ((c.uncharge V i).irps i).completions }), []⟩ := by
  have hsettle : c.toFair.settle V i = (c.uncharge V i, []) := by
    unfold Fair.settle
    rw [if_neg (by simp [hadm])]
    exact admitHeld_nil (V := V) hheld hwaiting
  have hstep : c.step V ch (.fetching i) = (c.withFair (c.uncharge V i), [.complete i false .success (V.bytes i)]) := by
    simp only [step, withReleased, hsettle, hch.ok, hch.pool, if_true, hch.bytes]
    rfl
  have h₅ := @reachable_only V c _ ch h (by rw [hstep]; rfl)
  rw [hstep] at h₅
  exact @reachable_only V (c.withFair (c.uncharge V i)) (.complete i false .success (V.bytes i)) ch h₅ rfl

theorem afterFetch_eq (ha : Alone V c i) {f₁ f₂ : Fair} (h₁ : f₁ = (c.admitNow V i).setIrp i { (c.admitNow V i).irps i with context2 := .stamp })
    (h₂ : f₂ = (f₁.uncharge V i).setIrp i
      { (f₁.uncharge V i).irps i with completions := ⟨false, .success, V.bytes i⟩ :: ((f₁.uncharge V i).irps i).completions }) :
    f₂ = c.toFair.afterFetch V i := by
  have hlt := (V.request i).length_lt
  have hirps : f₂.irps = (c.toFair.afterFetch V i).irps := by
    funext j
    by_cases hj : j = i <;> simp [h₂, h₁, Fair.afterFetch, Fair.setIrp, Fair.admitNow, Fair.charge, Fair.uncharge, Fair.tag, ha.irp, hj]
  have hnodes : f₂.nodes = (c.toFair.afterFetch V i).nodes := by
    funext node
    by_cases hn : node = (V.request i).node
    · have hzero : (c.nodes (V.request i).node).readFetchesInFlight = 0 := ha.node
      have hcount : wrapSub 32 (((c.nodes (V.request i).node).readFetchesInFlight + 1) % 2 ^ 32) 1 = 0 := by
        rw [hzero]
        rfl
      subst hn
      have hself : f₂.nodes (V.request i).node = ⟨wrapSub 32 (((c.nodes (V.request i).node).readFetchesInFlight + 1) % 2 ^ 32) 1,
          (c.startTag V i + (V.request i).length) % 2 ^ 64⟩ := by
        rw [h₂, h₁]
        simp only [Fair.setIrp, Fair.admitNow, Fair.charge, Fair.uncharge, Fair.tag, Function.update_self]
      rw [hself, hcount]
      exact (Function.update_self (V.flow i) _ c.nodes).symm
    · simp [h₂, h₁, Fair.afterFetch, Fair.setIrp, Fair.admitNow, Fair.charge, Fair.uncharge, Fair.tag, Setup.flow, hn]
  have hbytes : f₂.inFlightBytes = c.inFlightBytes := by
    rw [h₂, h₁]
    show wrapSub 64 ((c.inFlightBytes + (V.request i).length) % 2 ^ 64) (V.request i).length = _
    rw [ha.bytes, Nat.mod_eq_of_lt (by omega), wrapSub_of_le (by omega)]
    omega
  have hfetches : f₂.inFlightFetches = c.inFlightFetches := by
    rw [h₂, h₁]
    show wrapSub 32 ((c.inFlightFetches + 1) % 2 ^ 32) 1 = _
    rw [ha.fetches]
    rfl
  have hunder : f₂.underflow = c.underflow := by
    have hself : ((c.admitNow V i).nodes (V.request i).node).readFetchesInFlight = 1 := by
      have hzero : (c.nodes (V.request i).node).readFetchesInFlight = 0 := ha.node
      simp only [Fair.admitNow, Fair.charge, Fair.tag, Function.update_self, hzero]
      rfl
    rw [h₂, h₁]
    show (c.underflow || decide ((c.inFlightBytes + (V.request i).length) % 2 ^ 64 < (V.request i).length) ||
      decide ((c.inFlightFetches + 1) % 2 ^ 32 < 1) ||
      decide (((c.admitNow V i).nodes (V.request i).node).readFetchesInFlight < 1)) = c.underflow
    rw [hself, ha.fetches, ha.bytes, Nat.zero_add, Nat.mod_eq_of_lt (by omega), ha.underflow]
    simp
  refine Fair.ext (y := c.toFair.afterFetch V i) hbytes ?_ hfetches ?_ ?_ hnodes hirps ?_ ?_ hunder <;> rw [h₂, h₁] <;> rfl

/-- The core once read `i` was fetched with nothing else in flight. -/
def Core.afterFetch (V : Setup) (c : Core) (i : ℕ) : Core :=
  { c with toFair := c.toFair.afterFetch V i, count := i + 1, returned := Function.update c.returned i (some .pending) }

theorem reachable_afterFetch {ch : Choice} (h : (system V).Reachable ⟨c, []⟩) (ha : Alone V c i) (hch : Plain V ch i)
    (hspec : (V.request i).speculative = false) (ho : (V.request i).offset = 0) : (system V).Reachable ⟨c.afterFetch V i, []⟩ := by
  have hadm : ((c.admitNow V i).irps i).admitted = true := by simp [Fair.admitNow, Fair.charge]
  have hfetching := reachable_fetching h ha hch hspec ho
  have hanswered := reachable_answered hfetching hch (by simpa [Core.setContext2, Core.withFair, Fair.setIrp, Core.returns] using hadm) ha.held ha.waiting
  have heq := afterFetch_eq ha rfl rfl
  unfold Core.afterFetch
  rw [← heq]
  exact hanswered

/-- The core after `n` reads of demand that were fetched one by one. -/
def served (bytes n : ℕ) : Core :=
  { initial.core with
    virtualTime := bytes * (n - 1)
    nodes := fun node => ⟨0, if node = 0 then bytes * n % 2 ^ 64 else 0⟩
    irps := fun i => if i < n then ⟨false, 0, .stamp, [⟨false, .success, bytes⟩], 1, 1⟩ else ⟨false, 0, .empty, [], 0, 0⟩
    count := n
    returned := fun i => if i < n then some .pending else none }

theorem update_below {α : Type*} (n : ℕ) (a b : α) :
    Function.update (fun i => if i < n then a else b) n a = fun i => if i < n + 1 then a else b := by
  funext i
  by_cases hi : i = n
  · subst hi
    rw [Function.update_self, if_pos (Nat.lt_succ_self i)]
  · rw [Function.update_of_ne hi]
    exact if_congr (by omega) rfl rfl

theorem demandFirst_flow (hn : n < demand) : (demandFirst bytes demand h0 h1).flow n = 0 := if_pos hn

theorem served_startTag (hn : n < demand) (hwrap : bytes * demand ≤ 2 ^ 64) :
    (served bytes n).startTag (demandFirst bytes demand h0 h1) n = bytes * n := by
  have hlt : bytes * n < 2 ^ 64 := (Nat.mul_lt_mul_of_pos_left hn h0).trans_le hwrap
  have hfinish : ((served bytes n).nodeOf (demandFirst bytes demand h0 h1) n).readFinishTag = bytes * n := by
    show (if (demandFirst bytes demand h0 h1).flow n = 0 then bytes * n % 2 ^ 64 else 0) = _
    rw [if_pos (demandFirst_flow hn), Nat.mod_eq_of_lt hlt]
  unfold Fair.startTag
  rw [hfinish]
  exact max_eq_left (Nat.mul_le_mul_left _ (Nat.sub_le _ _))

theorem served_succ (hn : n < demand) (hwrap : bytes * demand ≤ 2 ^ 64) :
    (served bytes n).afterFetch (demandFirst bytes demand h0 h1) n = served bytes (n + 1) := by
  have hirps := update_below n (⟨false, 0, .stamp, [⟨false, .success, bytes⟩], 1, 1⟩ : Irp) ⟨false, 0, .empty, [], 0, 0⟩
  have hreturned := update_below n (some Status.pending) none
  have hnodes : Function.update (served bytes n).nodes 0 ⟨0, (bytes * n + bytes) % 2 ^ 64⟩ = (served bytes (n + 1)).nodes := by
    funext node
    by_cases h0 : node = 0
    · simp only [h0, Function.update_self, served, if_true, Nat.mul_succ]
    · simp only [Function.update_of_ne h0, served, if_neg h0]
  have hfair : (served bytes n).toFair.afterFetch (demandFirst bytes demand h0 h1) n = (served bytes (n + 1)).toFair := by
    unfold Fair.afterFetch
    rw [served_startTag hn hwrap, demandFirst_flow hn, show (demandFirst bytes demand h0 h1).bytes n = bytes from rfl, hnodes]
    simp only [served, hirps, Nat.add_sub_cancel]
  unfold Core.afterFetch
  rw [hfair]
  simp only [served, hreturned]

theorem served_zero : served bytes 0 = initial.core := by
  unfold served
  simp [initial]

/-- Demand that is fetched read by read moves the tags as far as it goes. -/
theorem reachable_served (hn : n ≤ demand) (hwrap : bytes * demand ≤ 2 ^ 64) :
    (system (demandFirst bytes demand h0 h1)).Reachable ⟨served bytes n, []⟩ := by
  induction n with
  | zero => exact served_zero ▸ .init rfl
  | succ n ih =>
    have halone : Alone (demandFirst bytes demand h0 h1) (served bytes n) n := ⟨rfl, rfl, rfl, rfl, rfl, rfl, if_neg (Nat.lt_irrefl n), rfl⟩
    have hspec : ((demandFirst bytes demand h0 h1).request n).speculative = false := decide_eq_false (Nat.not_le.mpr hn)
    rw [← @served_succ n bytes demand h0 h1 hn hwrap]
    have hplain : Plain (demandFirst bytes demand h0 h1) (aside bytes) n := ⟨rfl, rfl, rfl, le_rfl, rfl⟩
    exact reachable_afterFetch (ih (Nat.le_of_succ_le hn)) halone hplain hspec rfl

/-- Three more reads of the one file, and none of the other. -/
theorem demandFirst_unfair (hcount : s.core.count = demand + 7) (hadm : s.lastAdmissions demand = [1, 1, 0, 0, 0, 0, 0])
    (hcount' : s'.core.count = demand + 7) (hadm' : s'.lastAdmissions demand = [1, 1, 1, 1, 1, 0, 0]) :
    ¬ |s.admittedSince (demandFirst bytes demand h0 h1) s' 1 - s.admittedSince (demandFirst bytes demand h0 h1) s' 2| ≤
      (demandFirst bytes demand h0 h1).largest s'.core.count 1 + (demandFirst bytes demand h0 h1).largest s'.core.count 2 := by
  obtain ⟨hb1, hb2⟩ := @demandFirst_admittedBytes s bytes demand h0 h1 _ _ _ _ _ _ _ hcount hadm
  obtain ⟨hb1', hb2'⟩ := @demandFirst_admittedBytes s' bytes demand h0 h1 _ _ _ _ _ _ _ hcount' hadm'
  have hlargest : ∀ n node, (demandFirst bytes demand h0 h1).largest n node ≤ bytes := fun n node => Finset.sup_le fun _ _ => le_rfl
  have hl1 := hlargest s'.core.count 1
  have hl2 := hlargest s'.core.count 2
  unfold State.admittedSince
  rw [hb1, hb2, hb1', hb2', abs_le]
  push_cast
  omega

/-- Demand that brings the tags to where they wrap, and then two files that read ahead. -/
def wrapping : Setup := demandFirst (2 ^ 31) (2 ^ 33) (by decide) (by decide)

/-- Once a finish tag has wrapped, reads of a file are tagged alike and go out as they came. -/
theorem fair_bytes_wrapped : ∃ s s', (system wrapping).Reachable s ∧ s.core.waiting = [] ∧
    (∀ i ∈ s.core.held, s.core.virtualTime ≤ s.core.heldTag i) ∧ (∀ node ∈ ({1, 2} : Set ℕ), s.HasHeld wrapping node) ∧
    Relation.ReflTransGen (BackloggedStep wrapping {1, 2}) s s' ∧
    ¬ |s.admittedSince wrapping s' 1 - s.admittedSince wrapping s' 2| ≤ wrapping.largest s'.core.count 1 + wrapping.largest s'.core.count 2 := by
  have hrun : ((run (State.next wrapping) ⟨served (2 ^ 31) (2 ^ 33), []⟩ (queueUp (2 ^ 31) (2 ^ 33))).bind fun s =>
      (run (State.nextBacklogged wrapping 1 2) s (letGo (2 ^ 31) (2 ^ 33))).map fun s' =>
        (decide (s.Backlogs wrapping 1 2), (s.core.count, s'.core.count), s.lastAdmissions (2 ^ 33), s'.lastAdmissions (2 ^ 33))) =
      some (true, (2 ^ 33 + 7, 2 ^ 33 + 7), [1, 1, 0, 0, 0, 0, 0], [1, 1, 1, 1, 1, 0, 0]) := by decide +kernel
  obtain ⟨s, hs, hrest⟩ := Option.bind_eq_some_iff.mp hrun
  obtain ⟨s', hs', hfacts⟩ := Option.map_eq_some_iff.mp hrest
  obtain ⟨hback, hrest⟩ := Prod.mk.inj hfacts
  obtain ⟨hcounts, hrest⟩ := Prod.mk.inj hrest
  obtain ⟨hadm, hadm'⟩ := Prod.mk.inj hrest
  obtain ⟨hcount, hcount'⟩ := Prod.mk.inj hcounts
  obtain ⟨hw, ha, h1, h2⟩ := of_decide_eq_true hback
  have hstep : ∀ s act s', State.next wrapping s act = some s' → (system wrapping).step s s' := fun _ act _ hn => ⟨act, hn⟩
  have hserved : (system wrapping).Reachable ⟨served (2 ^ 31) (2 ^ 33), []⟩ := reachable_served le_rfl (by decide)
  have hreach := hserved.run hstep hs
  have hcont : ∀ s act s', State.nextBacklogged wrapping 1 2 s act = some s' → BackloggedStep wrapping {1, 2} s s' :=
    fun _ _ _ => State.nextBacklogged_step
  have hpath := reflTransGen_run hcont hs'
  refine ⟨s, s', hreach, hw, ha, ?_, hpath, ?_⟩
  · rintro node (rfl | rfl)
    · exact h1
    · exact h2
  · exact demandFirst_unfair hcount hadm hcount' hadm'

end BlorgFS.Read
