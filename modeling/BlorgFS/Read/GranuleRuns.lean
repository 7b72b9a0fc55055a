import BlorgFS.Lib.Transition
import BlorgFS.Read.Granule

/-! The reads of one file through any number of handles, and the granule of each handle: it
stays a power of two in its range and moves by a factor of two, on an agreement of the windows
that closed on the handle. -/

namespace BlorgFS.Read.Adapt

open Lib

/-! ### The machine -/

/-- A file object: its `CCB`, whether it has a cache map, whether its last handle is closed, the
reads counted as consumed that are under way on it, and the votes of the windows that closed
on it, the last first. -/
structure Handle where
  ccb : Ccb := {}
  privateCacheMap : Bool := false
  cleanupComplete : Bool := false
  reads : ℕ := 0
  votes : List ℤ := []
deriving DecidableEq

structure State where
  fcb : Fcb := {}
  handles : ℕ → Option Handle := fun _ => none

inductive Act
  | create (h : ℕ)
  | fastRead (h : ℕ)
  | cachedRead (h : ℕ)
  | finish (h : ℕ) (counted : Option (BitVec 32)) (active : ℤ)
  | paging (offset : ℕ) (realLength : BitVec 32)
  | latency (arrivedQpc completedQpc : ℤ)
  | cleanup (h : ℕ)
  | close (h : ℕ)

/-- The handle an act is on. -/
def Act.handle : Act → Option ℕ
  | .create h | .fastRead h | .cachedRead h | .finish h _ _ | .cleanup h | .close h => some h
  | .paging _ _ | .latency _ _ => none

def State.set (s : State) (h : ℕ) (x : Option Handle) : State := { s with handles := Function.update s.handles h x }

/-- The first cached read of a file object sets up its cache map, and tells the cache manager
the granule the handle starts with. -/
def Handle.initializeCacheMap (g : Globals) (x : Handle) : Handle :=
  if x.privateCacheMap then x
  else if g.readAheadGranularity ≠ 0 then
    { x with privateCacheMap := true, ccb := { x.ccb with readAheadGranularity := g.readAheadGranularity } }
  else { x with privateCacheMap := true }

/-- A handle that starts begins the window afresh. -/
def Fcb.initializeCacheMap (g : Globals) (f : Fcb) (x : Handle) : Fcb :=
  if x.privateCacheMap then f
  else if g.readAheadGranularity ≠ 0 then { f with readAheadFetchedBytes := 0, readAheadConsumedBytes := 0 }
  else f

/-- The bytes a read consumed. -/
def Fcb.consume (f : Fcb) (bytes : ℕ) : Fcb :=
  { f with readAheadConsumedBytes := ulong64 (f.readAheadConsumedBytes + bytes) }

/-- A read that has copied its bytes: they are consumed, and the policy looks at the window. -/
def State.consume (g : Globals) (s : State) (h : ℕ) (x : Handle) (bytes : ℕ) (active : ℤ) : State :=
  let fcb := s.fcb.consume bytes
  let (fcb', ccb) := readAdaptGranularity g active fcb x.ccb
  { s with fcb := fcb' }.set h (some { x with ccb := ccb, votes := (fcb.windowVote g active x.ccb).toList ++ x.votes })

/-- A fast read is one the cache manager has a cache map for; a file object a read is under
way on is not closed. -/
def next (g : Globals) (s : State) : Act → Option State
  | .create h =>
    match s.handles h with
    | none => some ({ s with fcb := { s.fcb with readIdleLastEndQpc := 0 } }.set h (some {}))
    | some _ => none
  | .fastRead h => (s.handles h).bind fun x =>
    if x.privateCacheMap then some (s.set h (some { x with reads := x.reads + 1 })) else none
  | .cachedRead h => (s.handles h).map fun x =>
    { s with fcb := s.fcb.initializeCacheMap g x }.set h
      (some { x.initializeCacheMap g with reads := x.reads + 1 })
  | .finish h counted active => (s.handles h).bind fun x =>
    if x.reads = 0 then none
    else
      let x := { x with reads := x.reads - 1 }
      match counted with
      | none => some (s.set h (some x))
      | some bytes => some (s.consume g h x bytes.toNat active)
  | .paging offset realLength => some { s with fcb := s.fcb.countPaging offset realLength.toNat }
  | .latency arrivedQpc completedQpc => some { s with fcb := s.fcb.readRecordUserLatency arrivedQpc completedQpc }
  | .cleanup h => (s.handles h).map fun x => s.set h (some { x with privateCacheMap := false, cleanupComplete := true })
  | .close h => (s.handles h).bind fun x => if x.reads = 0 then some (s.set h none) else none

def system (g : Globals) : System State where
  init s := s = {}
  step s s' := ∃ act, next g s act = some s'

/-! ### One step -/

variable {g : Globals} {s s' : State} {act : Act} {h n bytes : ℕ} {x x' : Handle} {active : ℤ}

/-- What holds of a file object: its granule is one, it has one once its cache map is set up,
and its tally stands for its votes. -/
structure Handle.Sound (g : Globals) (x : Handle) : Prop where
  granule : x.ccb.readAheadGranularity = 0 ∨ g.Granule x.ccb.readAheadGranularity
  told : g.readAheadGranularity ≠ 0 → x.privateCacheMap = true ∨ x.reads ≠ 0 → x.ccb.readAheadGranularity ≠ 0
  untold : x.cleanupComplete = false → x.privateCacheMap = false → x.ccb.readAheadGranularity = 0
  tally : Tallied x.ccb.readAheadAgreement x.votes

structure Inv (g : Globals) (s : State) : Prop where
  handles : ∀ h x, s.handles h = some x → x.Sound g
  consumed : g.readAheadGranularity ≠ 0 → g.readAheadAdapt = true → s.fcb.readAheadConsumedBytes < 2 ^ 32

theorem Inv.set (hi : Inv g s) {f : Fcb} {y : Option Handle}
    (hf : g.readAheadGranularity ≠ 0 → g.readAheadAdapt = true → f.readAheadConsumedBytes < 2 ^ 32)
    (hy : ∀ x, y = some x → x.Sound g) : Inv g ({ s with fcb := f }.set h y) := by
  refine ⟨fun j x hx => ?_, hf⟩
  by_cases hj : j = h
  · subst hj
    exact hy x (by simpa [State.set] using hx)
  · exact hi.handles j x (by simpa [State.set, hj] using hx)

theorem Handle.Sound.initializeCacheMap (hg : g.Admitted) (hx : x.Sound g) :
    Handle.Sound g { x.initializeCacheMap g with reads := n } := by
  unfold Handle.initializeCacheMap
  split_ifs with hmap h0
  · exact ⟨hx.granule, fun hne _ => hx.told hne (Or.inl hmap), hx.untold, hx.tally⟩
  · exact ⟨Or.inr (hg.granule_start h0), fun _ _ => h0, fun _ => nofun, hx.tally⟩
  · exact ⟨hx.granule, fun hne => absurd hne h0, fun _ => nofun, hx.tally⟩

theorem Handle.Sound.release (hx : x.Sound g) (hr : x.reads ≠ 0) : Handle.Sound g { x with reads := x.reads - 1 } :=
  ⟨hx.granule, fun hne _ => hx.told hne (Or.inr hr), hx.untold, hx.tally⟩

theorem State.consume_of_none (hv : (s.fcb.consume bytes).windowVote g active x.ccb = none) :
    s.consume g h x bytes active = { s with fcb := s.fcb.consume bytes }.set h (some x) := by
  simp only [State.consume, readAdaptGranularity, hv, Option.toList_none, List.nil_append]

theorem State.consume_of_some {vote : ℤ} (hv : (s.fcb.consume bytes).windowVote g active x.ccb = some vote) :
    s.consume g h x bytes active =
      { s with fcb := (s.fcb.consume bytes).newWindow }.set h (some { x with ccb := x.ccb.cast g vote, votes := vote :: x.votes }) := by
  simp only [State.consume, readAdaptGranularity, hv, Option.toList_some, List.singleton_append]

/-- A vote is of a handle that was told a granule. -/
theorem Handle.Sound.told_of_vote {f : Fcb} {vote : ℤ} (hx : x.Sound g) (hv : f.windowVote g active x.ccb = some vote) :
    g.Granule x.ccb.readAheadGranularity := by
  refine hx.granule.resolve_left fun h0 => ?_
  simp [Fcb.windowVote, h0] at hv

theorem Handle.Sound.cast (hg : g.Admitted) {f : Fcb} {vote : ℤ} (hx : x.Sound g) (hv : f.windowVote g active x.ccb = some vote) :
    Handle.Sound g { x with ccb := x.ccb.cast g vote, votes := vote :: x.votes } := by
  have hn := hx.told_of_vote hv
  obtain ⟨hgranule, htally, -⟩ := Ccb.cast_spec hg hn hx.tally (Fcb.windowVote_cases hv)
  exact ⟨Or.inr hgranule, fun _ _ => hgranule.ne_zero, fun hc hm => absurd (hx.untold hc hm) hn.ne_zero, htally⟩

theorem Inv.sum_lt (hi : Inv g s) (h0 : g.readAheadGranularity ≠ 0) (ha : g.readAheadAdapt = true) (bytes : BitVec 32) :
    s.fcb.readAheadConsumedBytes + bytes.toNat < 2 ^ 33 := by
  have hconsumed := hi.consumed h0 ha
  have hbytes := bytes.isLt
  omega

theorem Inv.consume (hg : g.Admitted) (hi : Inv g s) (hx : x.Sound g)
    (hn : g.readAheadGranularity ≠ 0 → x.ccb.readAheadGranularity ≠ 0) : Inv g (s.consume g h x bytes active) := by
  cases hv : (s.fcb.consume bytes).windowVote g active x.ccb with
  | none =>
    rw [State.consume_of_none hv]
    refine hi.set (fun h0 ha => ?_) fun y hy => Option.some.inj hy ▸ hx
    have hshort := Fcb.consumed_of_windowVote hv h0 (hn h0) ha
    have hgranule := hx.granule.resolve_left (hn h0)
    exact lt_of_lt_of_le hshort (windowBytes_le (hgranule.sized hg))
  | some vote =>
    rw [State.consume_of_some hv]
    exact hi.set (fun _ _ => Nat.two_pow_pos 32) fun y hy => Option.some.inj hy ▸ hx.cast hg hv

theorem Inv.next (hg : g.Admitted) (hi : Inv g s) (hn : Adapt.next g s act = some s') : Inv g s' := by
  cases act with
  | create h =>
    simp only [Adapt.next] at hn
    split at hn
    next hnone =>
      rw [← Option.some.inj hn]
      refine hi.set hi.consumed fun x hx => Option.some.inj hx ▸ ?_
      exact ⟨Or.inl rfl, fun _ h => by simp at h, fun _ _ => rfl, tallied_zero _⟩
    next => cases hn
  | fastRead h =>
    obtain ⟨x, hx, hn⟩ := Option.bind_eq_some_iff.mp hn
    split_ifs at hn with hmap
    rw [← Option.some.inj hn]
    refine hi.set hi.consumed fun y hy => Option.some.inj hy ▸ ?_
    have hs := hi.handles h x hx
    exact ⟨hs.granule, fun hne _ => hs.told hne (Or.inl hmap), hs.untold, hs.tally⟩
  | cachedRead h =>
    obtain ⟨x, hx, hn⟩ := Option.map_eq_some_iff.mp hn
    rw [← hn]
    refine hi.set (fun h0 ha => ?_) fun y hy => Option.some.inj hy ▸ (hi.handles h x hx).initializeCacheMap hg
    unfold Fcb.initializeCacheMap
    split_ifs
    · exact hi.consumed h0 ha
    · exact Nat.two_pow_pos 32
  | finish h counted active =>
    obtain ⟨x, hx, hn⟩ := Option.bind_eq_some_iff.mp hn
    split_ifs at hn with hr
    cases counted with
    | none =>
      rw [← Option.some.inj hn]
      exact hi.set hi.consumed fun y hy => Option.some.inj hy ▸ (hi.handles h x hx).release hr
    | some bytes =>
      rw [← Option.some.inj hn]
      have hs := hi.handles h x hx
      exact hi.consume hg (hs.release hr) fun h0 => hs.told h0 (Or.inr hr)
  | paging offset realLength =>
    rw [← Option.some.inj hn]
    exact ⟨hi.handles, hi.consumed⟩
  | latency arrivedQpc completedQpc =>
    rw [← Option.some.inj hn]
    refine ⟨hi.handles, ?_⟩
    change _ → _ → (s.fcb.readRecordUserLatency arrivedQpc completedQpc).readAheadConsumedBytes < 2 ^ 32
    unfold Fcb.readRecordUserLatency
    split_ifs <;> exact hi.consumed
  | cleanup h =>
    obtain ⟨x, hx, hn⟩ := Option.map_eq_some_iff.mp hn
    rw [← hn]
    refine hi.set hi.consumed fun y hy => Option.some.inj hy ▸ ?_
    have hs := hi.handles h x hx
    refine ⟨hs.granule, fun hne hr => hs.told hne (Or.inr ?_), nofun, hs.tally⟩
    simpa using hr
  | close h =>
    obtain ⟨x, hx, hn⟩ := Option.bind_eq_some_iff.mp hn
    split_ifs at hn with hr
    rw [← Option.some.inj hn]
    exact hi.set hi.consumed nofun

theorem reachable_inv (hg : g.Admitted) (hs : (system g).Reachable s) : Inv g s := by
  refine System.invariant ?_ ?_ hs
  · rintro s rfl
    exact ⟨nofun, fun _ _ => Nat.two_pow_pos 32⟩
  · rintro s s' - hi ⟨act, hn⟩
    exact hi.next hg hn

/-! ### Runs -/

@[simp] theorem State.set_handles (s : State) (h : ℕ) (y : Option Handle) :
    (s.set h y).handles = Function.update s.handles h y := rfl

/-- What a step leaves of the file objects it is not on. -/
theorem next_handles (hn : next g s act = some s') (hne : act.handle ≠ some h) : s'.handles h = s.handles h := by
  have hset : ∀ {f : Fcb} {j : ℕ} {y : Option Handle}, some j ≠ some h → (({ s with fcb := f } : State).set j y).handles h = s.handles h :=
    fun hj => Function.update_of_ne (fun he => hj (congrArg some he.symm)) _ _
  cases act with
  | create j =>
    simp only [Adapt.next] at hn
    split at hn
    next => exact Option.some.inj hn ▸ hset hne
    next => cases hn
  | fastRead j =>
    obtain ⟨x, -, hn⟩ := Option.bind_eq_some_iff.mp hn
    split_ifs at hn
    exact Option.some.inj hn ▸ hset hne
  | cachedRead j =>
    obtain ⟨x, -, hn⟩ := Option.map_eq_some_iff.mp hn
    exact hn ▸ hset hne
  | finish j counted active =>
    obtain ⟨x, -, hn⟩ := Option.bind_eq_some_iff.mp hn
    split_ifs at hn
    cases counted with
    | none => exact Option.some.inj hn ▸ hset hne
    | some bytes => exact Option.some.inj hn ▸ hset hne
  | paging offset realLength => exact Option.some.inj hn ▸ rfl
  | latency arrivedQpc completedQpc => exact Option.some.inj hn ▸ rfl
  | cleanup j =>
    obtain ⟨x, -, hn⟩ := Option.map_eq_some_iff.mp hn
    exact hn ▸ hset hne
  | close j =>
    obtain ⟨x, -, hn⟩ := Option.bind_eq_some_iff.mp hn
    split_ifs at hn
    exact Option.some.inj hn ▸ hset hne

/-- How a step moves the granule of a file object: to the start, on the read that sets up the
cache map, or by a factor of two, when the window the step closes and those before it that
closed on the handle agree. -/
def Moved (g : Globals) (s : State) (act : Act) (h : ℕ) (x x' : Handle) : Prop :=
  (act = .cachedRead h ∧ x.privateCacheMap = false ∧ (x.ccb.readAheadGranularity = 0 ∨ x.cleanupComplete = true) ∧
      x'.ccb.readAheadGranularity = g.readAheadGranularity) ∨
    ∃ bytes active vote, act = .finish h (some bytes) active ∧
      (s.fcb.consume bytes.toNat).windowVote g active x.ccb = some vote ∧ x'.votes = vote :: x.votes ∧ vote ≠ 0 ∧
      x'.votes.take agreement.natAbs = List.replicate agreement.natAbs vote ∧
      (x'.ccb.readAheadGranularity = 2 * x.ccb.readAheadGranularity ∨ x.ccb.readAheadGranularity = 2 * x'.ccb.readAheadGranularity)

theorem Handle.Sound.moved (hg : g.Admitted) (hs : x.Sound g) (hx' : (s.consume g h x bytes active).handles h = some x') :
    x'.ccb.readAheadGranularity = x.ccb.readAheadGranularity ∨
      ∃ vote, (s.fcb.consume bytes).windowVote g active x.ccb = some vote ∧ x'.votes = vote :: x.votes ∧ vote ≠ 0 ∧
        x'.votes.take agreement.natAbs = List.replicate agreement.natAbs vote ∧
        (x'.ccb.readAheadGranularity = 2 * x.ccb.readAheadGranularity ∨
          x.ccb.readAheadGranularity = 2 * x'.ccb.readAheadGranularity) := by
  cases hv : (s.fcb.consume bytes).windowVote g active x.ccb with
  | none =>
    rw [State.consume_of_none hv, State.set_handles, Function.update_self] at hx'
    exact Or.inl (Option.some.inj hx' ▸ rfl)
  | some vote =>
    rw [State.consume_of_some hv, State.set_handles, Function.update_self] at hx'
    obtain ⟨-, -, hmoved⟩ := Ccb.cast_spec hg (hs.told_of_vote hv) hs.tally (Fcb.windowVote_cases hv)
    rw [← Option.some.inj hx']
    exact hmoved.imp_right fun ⟨hvote, hrun, hfactor⟩ => ⟨vote, rfl, rfl, hvote, hrun, hfactor⟩

theorem Inv.moved (hg : g.Admitted) (hi : Inv g s) (hn : Adapt.next g s act = some s') (hx : s.handles h = some x)
    (hx' : s'.handles h = some x') : x'.ccb.readAheadGranularity = x.ccb.readAheadGranularity ∨ Moved g s act h x x' := by
  have hs := hi.handles h x hx
  by_cases hact : act.handle = some h
  · cases act with
    | create j =>
      obtain rfl := Option.some.inj hact
      simp [Adapt.next, hx] at hn
    | fastRead j =>
      obtain rfl := Option.some.inj hact
      obtain ⟨y, hy, hn⟩ := Option.bind_eq_some_iff.mp hn
      split_ifs at hn
      rw [← Option.some.inj hn, State.set_handles, Function.update_self] at hx'
      rw [hx] at hy
      exact Or.inl (Option.some.inj hx' ▸ Option.some.inj hy ▸ rfl)
    | cachedRead j =>
      obtain rfl := Option.some.inj hact
      obtain ⟨y, hy, hn⟩ := Option.map_eq_some_iff.mp hn
      rw [← hn, State.set_handles, Function.update_self] at hx'
      rw [hx] at hy
      obtain rfl := Option.some.inj hy
      rw [← Option.some.inj hx']
      unfold Handle.initializeCacheMap
      split_ifs with hmap h0
      · exact Or.inl rfl
      · refine Or.inr (Or.inl ⟨rfl, Bool.eq_false_iff.mpr hmap, ?_, rfl⟩)
        cases hc : x.cleanupComplete with
        | true => exact Or.inr rfl
        | false => exact Or.inl (hs.untold hc (Bool.eq_false_iff.mpr hmap))
      · exact Or.inl rfl
    | finish j counted active =>
      obtain rfl := Option.some.inj hact
      obtain ⟨y, hy, hn⟩ := Option.bind_eq_some_iff.mp hn
      rw [hx] at hy
      obtain rfl := Option.some.inj hy
      split_ifs at hn with hr
      cases counted with
      | none =>
        rw [← Option.some.inj hn, State.set_handles, Function.update_self] at hx'
        exact Or.inl (Option.some.inj hx' ▸ rfl)
      | some bytes =>
        obtain rfl := Option.some.inj hn
        refine (Handle.Sound.moved hg (hs.release hr) hx').imp_right fun ⟨vote, hmoved⟩ => ?_
        exact Or.inr ⟨bytes, active, vote, rfl, hmoved⟩
    | paging offset realLength => cases hact
    | latency arrivedQpc completedQpc => cases hact
    | cleanup j =>
      obtain rfl := Option.some.inj hact
      obtain ⟨y, hy, hn⟩ := Option.map_eq_some_iff.mp hn
      rw [← hn, State.set_handles, Function.update_self] at hx'
      rw [hx] at hy
      exact Or.inl (Option.some.inj hx' ▸ Option.some.inj hy ▸ rfl)
    | close j =>
      obtain rfl := Option.some.inj hact
      obtain ⟨y, -, hn⟩ := Option.bind_eq_some_iff.mp hn
      split_ifs at hn
      rw [← Option.some.inj hn, State.set_handles, Function.update_self] at hx'
      cases hx'
  · rw [next_handles hn hact, hx] at hx'
    exact Or.inl (Option.some.inj hx' ▸ rfl)

/-- The tests of the window a read may close compute what they say: no product and no sum of
theirs wraps. -/
structure Exact (g : Globals) (f : Fcb) (current bytes : ℕ) : Prop where
  window : current * windowGranules < 2 ^ 64
  consumed : f.readAheadConsumedBytes + bytes < 2 ^ 64
  wasted : (f.readAheadConsumedBytes + bytes) * wasteRatio + current * leadGranules < 2 ^ 64
  grown : current < g.ceiling → current * 2 < 2 ^ 32
  greedy : (f.readIdleTicks + f.readBusyTicks) * 100 < 2 ^ 64 →
    f.readIsGreedy = decide (f.readIdleTicks ≠ 0 ∧
      f.readIdleTicks * 100 < (f.readIdleTicks + f.readBusyTicks) * greedyIdlePercent)

theorem Inv.exact_of_granule (hg : g.Admitted) (hi : Inv g s) (hn : g.Granule n) (h0 : g.readAheadGranularity ≠ 0)
    (ha : g.readAheadAdapt = true) (bytes : BitVec 32) : Exact g s.fcb n bytes.toNat := by
  have hsum := hi.sum_lt h0 ha bytes
  have hdouble := (hn.sized hg).double_le
  refine ⟨?_, ?_, ?_, fun hlt => ?_, Fcb.readIsGreedy_eq⟩
  · unfold windowGranules
    omega
  · omega
  · unfold wasteRatio leadGranules
    omega
  · exact lt_of_le_of_lt (hn.double_le hg hlt) hg.sized_ceiling.2.2

/-- In every run of the reads of a file: the granule of a handle is a power of two in its range
and moves as it should, the tests of the windows are exact, and a step is on one handle. -/
theorem granule_adapts (r : Registry) (hs : (system r.readConfig).Reachable s) (hn : next r.readConfig s act = some s') :
    (∀ h x, s'.handles h = some x →
      (x.ccb.readAheadGranularity = 0 ∨ r.readConfig.Granule x.ccb.readAheadGranularity) ∧
      (r.readConfig.readAheadGranularity ≠ 0 → x.privateCacheMap = true → x.ccb.readAheadGranularity ≠ 0)) ∧
    (∀ h x x', s.handles h = some x → s'.handles h = some x' →
      x'.ccb.readAheadGranularity = x.ccb.readAheadGranularity ∨ Moved r.readConfig s act h x x') ∧
    (∀ h x bytes active, act = .finish h (some bytes) active → s.handles h = some x →
      r.readConfig.readAheadGranularity ≠ 0 → r.readConfig.readAheadAdapt = true →
      x.ccb.readAheadGranularity ≠ 0 ∧ Exact r.readConfig s.fcb x.ccb.readAheadGranularity bytes.toNat) ∧
    ∀ h, act.handle ≠ some h → s'.handles h = s.handles h := by
  have hg := r.readConfig_admitted
  have hi := reachable_inv hg hs
  have hi' := hi.next hg hn
  refine ⟨fun h x hx => ?_, fun h x x' => hi.moved hg hn, fun h x bytes active hact hx h0 ha => ?_, fun h => next_handles hn⟩
  · have hs := hi'.handles h x hx
    exact ⟨hs.granule, fun h0 hmap => hs.told h0 (Or.inl hmap)⟩
  · subst hact
    obtain ⟨y, hy, hn⟩ := Option.bind_eq_some_iff.mp hn
    rw [hx] at hy
    obtain rfl := Option.some.inj hy
    split_ifs at hn with hr
    have hs := hi.handles h x hx
    have hne := hs.told h0 (Or.inr hr)
    exact ⟨hne, hi.exact_of_granule hg (hs.granule.resolve_left hne) h0 ha bytes⟩

/-- Two handles of one file; a window's worth is read through the first after the cache manager
fetched four times as much. -/
def wastefulWindow : List Act := [.cachedRead 0, .paging 0 1048576, .finish 0 (some 262144) 0]

theorem granule_adapts_wasteful : ∃ s s', (system (Registry.readConfig {})).Reachable s ∧
    next (Registry.readConfig {}) s (.finish 0 (some 262144) 0) = some s' ∧
    (∃ x x', s.handles 0 = some x ∧ s'.handles 0 = some x' ∧ x.ccb.readAheadGranularity = 131072 ∧
      x'.ccb.readAheadGranularity = 65536 ∧ Moved (Registry.readConfig {}) s (.finish 0 (some 262144) 0) 0 x x') ∧
    s'.handles 1 = s.handles 1 := by
  have hrun : ((run (next (Registry.readConfig {})) {} ([.create 0, .create 1, .cachedRead 1] ++ wastefulWindow ++ wastefulWindow.take 2)).bind fun s =>
      (next (Registry.readConfig {}) s (.finish 0 (some 262144) 0)).map fun s' =>
        ((s.handles 0).map (·.ccb.readAheadGranularity), (s'.handles 0).map (·.ccb.readAheadGranularity))) =
      some (some 131072, some 65536) := by decide +kernel
  obtain ⟨s, hs, hfacts⟩ := Option.bind_eq_some_iff.mp hrun
  obtain ⟨s', hn, hgranules⟩ := Option.map_eq_some_iff.mp hfacts
  obtain ⟨hbefore, hafter⟩ := Prod.mk.inj hgranules
  obtain ⟨x, hx, hgx⟩ := Option.map_eq_some_iff.mp hbefore
  obtain ⟨x', hx', hgx'⟩ := Option.map_eq_some_iff.mp hafter
  have h0 : (system (Registry.readConfig {})).Reachable {} := .init rfl
  have hstep : ∀ s act s', next (Registry.readConfig {}) s act = some s' → (system (Registry.readConfig {})).step s s' :=
    fun _ act _ hn => ⟨act, hn⟩
  have hreach := h0.run hstep hs
  obtain ⟨-, hmoved, -, hothers⟩ := granule_adapts {} hreach hn
  refine ⟨s, s', hreach, hn, ⟨x, x', hx, hx', hgx, hgx', (hmoved 0 x x' hx hx').resolve_left ?_⟩, hothers 1 (by decide)⟩
  rw [hgx, hgx']
  decide

end BlorgFS.Read.Adapt
