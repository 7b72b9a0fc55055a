import BlorgFS.DiskCache.Parts
import BlorgFS.Lib.Word
import Mathlib.Data.List.FinRange
import Mathlib.Order.Lattice

/-! The read-ahead granule of a handle: what the registry reader admits for its start and
its maximum, what the reads of a file count, and what `ReadAdaptGranularity` makes of the
window a read closes. The counts are the file's, the granule and the tally of votes the
handle's. -/

namespace BlorgFS.Read.Adapt

open Lib
open DiskCache (pageSize)

/-! ### Configuration -/

/-- The values of the `Parameters` key that could be read. -/
structure Registry where
  readAheadGranularityKb : Option (BitVec 32) := none
  readAheadMaxGranularityKb : Option (BitVec 32) := none
  readAheadAdapt : Option (BitVec 32) := none
  readAheadSlackGrowth : Option (BitVec 32) := none

structure Globals where
  readAheadGranularity : ℕ := pageSize * 32
  readAheadMaxGranularity : ℕ := pageSize * 512
  readAheadAdapt : Bool := true
  readAheadSlackGrowth : Bool := true

/-- `ReadAheadGranularityKb`. -/
def Globals.readGranularity (g : Globals) (granularityKb : ℕ) : Globals :=
  if granularityKb ≤ maxULong / 1024 then
    let granularity := ulong (granularityKb * 1024)
    if granularity = 0 ∨ pageSize ≤ granularity ∧ granularity &&& (granularity - 1) = 0 then
      { g with readAheadGranularity := granularity }
    else g
  else g

/-- `ReadAheadMaxGranularityKb`. -/
def Globals.readMaxGranularity (g : Globals) (maxGranularityKb : ℕ) : Globals :=
  if maxGranularityKb ≤ maxULong / 1024 then
    let maxGranularity := ulong (maxGranularityKb * 1024)
    if pageSize ≤ maxGranularity ∧ maxGranularity &&& (maxGranularity - 1) = 0 then
      { g with readAheadMaxGranularity := maxGranularity }
    else g
  else g

/-- `ReadAheadAdapt`. -/
def Globals.readAdapt (g : Globals) (adaptValue : ℕ) : Globals := { g with readAheadAdapt := 0 ≠ adaptValue }

/-- `ReadAheadSlackGrowth`. -/
def Globals.readSlackGrowth (g : Globals) (slackGrowthValue : ℕ) : Globals :=
  { g with readAheadSlackGrowth := 0 ≠ slackGrowthValue }

/-- `BlorgReadRegistryConfig`, on the defaults of the driver entry. -/
def Registry.readConfig (r : Registry) : Globals :=
  let g : Globals := {}
  let g := r.readAheadGranularityKb.elim g fun v => g.readGranularity v.toNat
  let g := r.readAheadMaxGranularityKb.elim g fun v => g.readMaxGranularity v.toNat
  let g := r.readAheadAdapt.elim g fun v => g.readAdapt v.toNat
  r.readAheadSlackGrowth.elim g fun v => g.readSlackGrowth v.toNat

/-- The largest granule a handle may grow to. -/
def Globals.ceiling (g : Globals) : ℕ :=
  if g.readAheadGranularity > g.readAheadMaxGranularity then g.readAheadGranularity else g.readAheadMaxGranularity

/-- A size in bytes the cache manager takes for a granule. -/
def Sized (n : ℕ) : Prop := n.isPowerOfTwo ∧ pageSize ≤ n ∧ n < 2 ^ 32

/-- What the loader lets through. -/
structure Globals.Admitted (g : Globals) : Prop where
  start : g.readAheadGranularity = 0 ∨ Sized g.readAheadGranularity
  max : Sized g.readAheadMaxGranularity

theorem sized_of_checked {n : ℕ} (hn : pageSize ≤ ulong n) (ha : ulong n &&& (ulong n - 1) = 0) : Sized (ulong n) := by
  have hpos : ulong n ≠ 0 := by
    have hpage : 0 < pageSize := by decide
    omega
  exact ⟨(Nat.and_sub_one_eq_zero_iff_isPowerOfTwo hpos).mp ha, hn, Nat.mod_lt _ (by decide)⟩

theorem Globals.Admitted.readGranularity {g : Globals} (h : g.Admitted) (kb : ℕ) : (g.readGranularity kb).Admitted := by
  unfold Globals.readGranularity
  dsimp only
  split_ifs with hkb hok
  · refine ⟨?_, h.max⟩
    rcases hok with h0 | ⟨hn, ha⟩
    · exact Or.inl h0
    · exact Or.inr (sized_of_checked hn ha)
  · exact h
  · exact h

theorem Globals.Admitted.readMaxGranularity {g : Globals} (h : g.Admitted) (kb : ℕ) : (g.readMaxGranularity kb).Admitted := by
  unfold Globals.readMaxGranularity
  dsimp only
  split_ifs with hkb hok
  · exact ⟨h.start, sized_of_checked hok.1 hok.2⟩
  · exact h
  · exact h

theorem Globals.Admitted.readAdapt {g : Globals} (h : g.Admitted) (v : ℕ) : (g.readAdapt v).Admitted := ⟨h.start, h.max⟩

theorem Globals.Admitted.readSlackGrowth {g : Globals} (h : g.Admitted) (v : ℕ) : (g.readSlackGrowth v).Admitted :=
  ⟨h.start, h.max⟩

theorem admitted_default : ({} : Globals).Admitted :=
  ⟨Or.inr ⟨⟨17, by decide⟩, by decide, by decide⟩, ⟨⟨21, by decide⟩, by decide, by decide⟩⟩

/-- A value that could not be read leaves the configuration as it was. -/
theorem Globals.Admitted.elim {g : Globals} {o : Option (BitVec 32)} {k : BitVec 32 → Globals} (h : g.Admitted)
    (hk : ∀ v, (k v).Admitted) : (o.elim g k).Admitted := by
  cases o with
  | none => exact h
  | some v => exact hk v

/-- Every configuration the loader leaves has passed its checks. -/
theorem Registry.readConfig_admitted (r : Registry) : r.readConfig.Admitted := by
  have h₁ := admitted_default.elim (o := r.readAheadGranularityKb) fun v => admitted_default.readGranularity v.toNat
  have h₂ := h₁.elim (o := r.readAheadMaxGranularityKb) fun v => h₁.readMaxGranularity v.toNat
  have h₃ := h₂.elim (o := r.readAheadAdapt) fun v => h₂.readAdapt v.toNat
  exact h₃.elim fun v => h₃.readSlackGrowth v.toNat

/-! ### The counts of a file -/

/-- `READ_STREAM_TRACKER`. -/
structure Stream where
  finish : ℕ := 0
  streak : ℕ := 0

def readStreamTrackerCount : ℕ := 4

theorem readStreamTrackerCount_pos : 0 < readStreamTrackerCount := by decide

structure Fcb where
  streams : Fin readStreamTrackerCount → Stream := fun _ => {}
  readLastStreamIndex : Fin readStreamTrackerCount := ⟨0, readStreamTrackerCount_pos⟩
  readAheadFetchedBytes : ℕ := 0
  readAheadConsumedBytes : ℕ := 0
  readIdleLastEndQpc : ℤ := 0
  readIdleTicks : ℕ := 0
  readBusyTicks : ℕ := 0
  readMaxPagingBytes : ℕ := 0

variable (f : Fcb)

/-- `ReadClaimStream`: the last tracker the read continues, or the first coldest one. -/
def Fcb.readClaimStream (offset : ℕ) : Fin readStreamTrackerCount :=
  let scan := (List.finRange readStreamTrackerCount).foldl
    (fun (acc : Option (Fin readStreamTrackerCount) × Fin readStreamTrackerCount) i =>
      (if offset = (f.streams i).finish then some i else acc.1,
        if (f.streams i).streak < (f.streams acc.2).streak then i else acc.2))
    (none, ⟨0, readStreamTrackerCount_pos⟩)
  scan.1.getD scan.2

/-- `ReadTrackStream`. -/
def Fcb.readTrackStream (offset length : ℕ) : Fcb :=
  let index := f.readClaimStream offset
  let stream := f.streams index
  { f with
    streams := Function.update f.streams index
      { finish := ulong64 (offset + length)
        streak := if offset = stream.finish then ulong64 (stream.streak + 1) else 1 }
    readLastStreamIndex := index }

/-- `ReadCurrentStreak`. -/
def Fcb.readCurrentStreak : ℕ := (f.streams f.readLastStreamIndex).streak

/-- What `BlorgVolumeRead` counts of a paging read. -/
def Fcb.countPaging (offset realLength : ℕ) : Fcb :=
  let f := f.readTrackStream offset realLength
  { f with
    readAheadFetchedBytes := ulong64 (f.readAheadFetchedBytes + realLength)
    readMaxPagingBytes := if realLength > f.readMaxPagingBytes then realLength else f.readMaxPagingBytes }

/-- A `LONG64` as a `ULONG64`. -/
def ticks (q : ℤ) : ℕ := (q % 2 ^ 64).toNat

/-- The idle half of `ReadRecordUserLatency`, where a statistics block is at hand. -/
def Fcb.readRecordUserLatency (arrivedQpc completedQpc : ℤ) : Fcb :=
  if arrivedQpc = 0 then f
  else
    { f with
      readIdleTicks :=
        if f.readIdleLastEndQpc ≠ 0 ∧ arrivedQpc > f.readIdleLastEndQpc then
          ulong64 (f.readIdleTicks + ticks (arrivedQpc - f.readIdleLastEndQpc))
        else f.readIdleTicks
      readBusyTicks := ulong64 (f.readBusyTicks + ticks (completedQpc - arrivedQpc))
      readIdleLastEndQpc := completedQpc }

/-! ### The window a read closes -/

def windowGranules : ℕ := 2

def windowFloor : ℕ := 256 * 1024

def leadGranules : ℕ := 1

def agreement : ℤ := 2

def wasteRatio : ℕ := 2

def growStreak : ℕ := 16

def greedyIdlePercent : ℕ := 25

def quietDepth : ℤ := 6

/-- The handle's share: `READ_AHEAD` fields of its `CCB`. -/
structure Ccb where
  readAheadGranularity : ℕ := 0
  readAheadAgreement : ℤ := 0
deriving DecidableEq

/-- `ReadIsGreedy`. -/
def Fcb.readIsGreedy : Bool :=
  let total := ulong64 (f.readIdleTicks + f.readBusyTicks)
  if total = 0 ∨ f.readIdleTicks = 0 then false
  else ulong64 (f.readIdleTicks * 100) < ulong64 (total * greedyIdlePercent)

/-- The bytes of a window judged against a granule. -/
def windowBytes (current : ℕ) : ℕ :=
  let window := ulong64 (current * windowGranules)
  if window < windowFloor then windowFloor else window

/-- The vote of the window the last counted read closed on a handle, if it closed one;
`active` is what `BlorgStatisticsFetchesActive` answered. -/
def Fcb.windowVote (g : Globals) (active : ℤ) (c : Ccb) : Option ℤ :=
  let current := c.readAheadGranularity
  if g.readAheadGranularity = 0 ∨ current = 0 ∨ g.readAheadAdapt = false then none
  else if f.readAheadConsumedBytes < windowBytes current then none
  else
    let greedy := g.readAheadSlackGrowth && decide (active < quietDepth) && f.readIsGreedy
    let lead := ulong64 (current * leadGranules)
    if f.readAheadFetchedBytes > ulong64 (ulong64 (f.readAheadConsumedBytes * wasteRatio) + lead) then some 1
    else if greedy = true ∧ f.readMaxPagingBytes ≥ current ∧ f.readCurrentStreak ≥ growStreak then some (-1)
    else some 0

/-- The counts when a window has been judged. -/
def Fcb.newWindow : Fcb :=
  { f with
    readAheadConsumedBytes := 0
    readAheadFetchedBytes := 0
    readMaxPagingBytes := 0
    readIdleTicks := 0
    readBusyTicks := 0 }

/-- The granule an agreement of votes asks for. -/
def Globals.nextGranule (g : Globals) (current : ℕ) (vote : ℤ) : ℕ :=
  if vote > 0 then if current > pageSize then current / 2 else pageSize
  else if current < g.ceiling then ulong (current * 2) else g.ceiling

/-- The run of agreeing votes, one vote on. -/
def nextTally (tally vote : ℤ) : ℤ := if tally * vote > 0 then tally + vote else vote

/-- What a vote makes of a handle's tally and granule. -/
def Ccb.cast (g : Globals) (c : Ccb) (vote : ℤ) : Ccb :=
  if vote = 0 then { c with readAheadAgreement := 0 }
  else
    let tally := nextTally c.readAheadAgreement vote
    if tally > -agreement ∧ tally < agreement then { c with readAheadAgreement := tally }
    else
      let next := g.nextGranule c.readAheadGranularity vote
      if next = c.readAheadGranularity then { c with readAheadAgreement := 0 }
      else { c with readAheadAgreement := 0, readAheadGranularity := next }

/-- `ReadAdaptGranularity`. -/
def readAdaptGranularity (g : Globals) (active : ℤ) (f : Fcb) (c : Ccb) : Fcb × Ccb :=
  match f.windowVote g active c with
  | none => (f, c)
  | some vote => (f.newWindow, c.cast g vote)

/-! ### Powers of two -/

theorem double_le_of_isPowerOfTwo {n m : ℕ} (hn : n.isPowerOfTwo) (hm : m.isPowerOfTwo) (h : n < m) : n * 2 ≤ m := by
  obtain ⟨a, rfl⟩ := hn
  obtain ⟨b, rfl⟩ := hm
  have hab : a < b := (Nat.pow_lt_pow_iff_right (by decide)).mp h
  calc 2 ^ a * 2 = 2 ^ (a + 1) := (pow_succ 2 a).symm
    _ ≤ 2 ^ b := Nat.pow_le_pow_right (by decide) hab

theorem half_of_isPowerOfTwo {n : ℕ} (hn : n.isPowerOfTwo) (h : 1 < n) : (n / 2).isPowerOfTwo ∧ 2 * (n / 2) = n := by
  obtain ⟨a, rfl⟩ := hn
  cases a with
  | zero => simp at h
  | succ a =>
    have he : 2 ^ (a + 1) / 2 = 2 ^ a := by rw [Nat.pow_succ, Nat.mul_div_cancel _ (by decide)]
    rw [he]
    exact ⟨⟨a, rfl⟩, (pow_succ' 2 a).symm⟩

theorem isPowerOfTwo_pageSize : pageSize.isPowerOfTwo := ⟨12, rfl⟩

theorem Sized.double_le {n : ℕ} (h : Sized n) : n * 2 ≤ 2 ^ 32 := double_le_of_isPowerOfTwo h.1 ⟨32, rfl⟩ h.2.2

/-! ### What a vote does -/

variable {g : Globals} {n : ℕ}

/-- What a granule may be. -/
def Globals.Granule (g : Globals) (n : ℕ) : Prop :=
  n.isPowerOfTwo ∧ pageSize ≤ n ∧ n ≤ max g.readAheadGranularity g.readAheadMaxGranularity

theorem Globals.ceiling_eq (g : Globals) : g.ceiling = max g.readAheadGranularity g.readAheadMaxGranularity := by
  unfold Globals.ceiling
  split_ifs with h
  · exact (max_eq_left h.le).symm
  · exact (max_eq_right (not_lt.mp h)).symm

theorem Globals.Admitted.sized_ceiling (h : g.Admitted) : Sized g.ceiling := by
  unfold Globals.ceiling
  split_ifs with hgt
  · refine h.start.resolve_left fun h0 => ?_
    rw [h0] at hgt
    exact absurd hgt (Nat.not_lt_zero _)
  · exact h.max

theorem Globals.Granule.sized (h : g.Admitted) (hn : g.Granule n) : Sized n :=
  ⟨hn.1, hn.2.1, lt_of_le_of_lt (g.ceiling_eq ▸ hn.2.2) h.sized_ceiling.2.2⟩

theorem Globals.Admitted.granule_start (h : g.Admitted) (h0 : g.readAheadGranularity ≠ 0) : g.Granule g.readAheadGranularity :=
  have hs := h.start.resolve_left h0
  ⟨hs.1, hs.2.1, le_max_left _ _⟩

theorem Globals.Granule.ne_zero (hn : g.Granule n) : n ≠ 0 := by
  have hpage : 0 < pageSize := by decide
  have := hn.2.1
  omega

/-- Growing never leaves 32 bits. -/
theorem Globals.Granule.double_le (h : g.Admitted) (hn : g.Granule n) (hlt : n < g.ceiling) : n * 2 ≤ g.ceiling :=
  double_le_of_isPowerOfTwo hn.1 h.sized_ceiling.1 hlt

/-- The next granule is one, and the same, twice or half the granule it is next to. -/
theorem Globals.Granule.next (h : g.Admitted) (hn : g.Granule n) (vote : ℤ) :
    g.Granule (g.nextGranule n vote) ∧
      (g.nextGranule n vote = n ∨ g.nextGranule n vote = 2 * n ∨ n = 2 * g.nextGranule n vote) := by
  have hle : n ≤ g.ceiling := g.ceiling_eq ▸ hn.2.2
  unfold Globals.nextGranule
  split_ifs with hv hpage hgrow
  · have hdouble : pageSize * 2 ≤ n := double_le_of_isPowerOfTwo isPowerOfTwo_pageSize hn.1 hpage
    obtain ⟨hpow, htwice⟩ := half_of_isPowerOfTwo hn.1 (lt_of_le_of_lt (by decide) hpage)
    refine ⟨⟨hpow, ?_, le_trans (Nat.div_le_self _ _) hn.2.2⟩, Or.inr (Or.inr htwice.symm)⟩
    exact (Nat.le_div_iff_mul_le (by decide)).mpr hdouble
  · have he : n = pageSize := le_antisymm (not_lt.mp hpage) hn.2.1
    rw [← he]
    exact ⟨hn, Or.inl rfl⟩
  · have hdouble := hn.double_le h hgrow
    rw [ulong_of_lt (lt_of_le_of_lt hdouble h.sized_ceiling.2.2)]
    refine ⟨⟨Nat.isPowerOfTwo_mul_two_of_isPowerOfTwo hn.1, ?_, g.ceiling_eq ▸ hdouble⟩, Or.inr (Or.inl (Nat.mul_comm _ _))⟩
    exact le_trans hn.2.1 (Nat.le_mul_of_pos_right _ (by decide))
  · have he : g.ceiling = n := le_antisymm (not_lt.mp hgrow) hle
    rw [he]
    exact ⟨hn, Or.inl rfl⟩

/-- The tally stands for a run of the last votes. -/
def Tallied (tally : ℤ) (votes : List ℤ) : Prop :=
  -agreement < tally ∧ tally < agreement ∧ votes.take tally.natAbs = List.replicate tally.natAbs tally.sign

theorem tallied_zero (votes : List ℤ) : Tallied 0 votes := ⟨by decide, by decide, rfl⟩

/-- A vote lengthens the run of its own sign or starts one. -/
theorem Tallied.run {tally vote : ℤ} {votes : List ℤ} (h : Tallied tally votes) (hvote : vote = 1 ∨ vote = -1) :
    (vote :: votes).take (nextTally tally vote).natAbs = List.replicate (nextTally tally vote).natAbs vote ∧
      (nextTally tally vote).sign = vote ∧ -agreement ≤ nextTally tally vote ∧ nextTally tally vote ≤ agreement := by
  obtain ⟨hlo, hhi, hrun⟩ := h
  have hcases : tally = -1 ∨ tally = 0 ∨ tally = 1 := by
    unfold agreement at hlo hhi
    omega
  rcases hcases with rfl | rfl | rfl <;> rcases hvote with rfl | rfl <;>
    exact ⟨by simp_all [nextTally], by decide, by decide, by decide⟩

/-- A vote keeps the tally a run of votes, and moves the granule only by a factor of two and
when the last votes agree. -/
theorem Ccb.cast_spec (h : g.Admitted) {c : Ccb} {votes : List ℤ} {vote : ℤ} (hn : g.Granule c.readAheadGranularity)
    (ht : Tallied c.readAheadAgreement votes) (hvote : vote = 0 ∨ vote = 1 ∨ vote = -1) :
    g.Granule (c.cast g vote).readAheadGranularity ∧ Tallied (c.cast g vote).readAheadAgreement (vote :: votes) ∧
      ((c.cast g vote).readAheadGranularity = c.readAheadGranularity ∨
        vote ≠ 0 ∧ (vote :: votes).take agreement.natAbs = List.replicate agreement.natAbs vote ∧
          ((c.cast g vote).readAheadGranularity = 2 * c.readAheadGranularity ∨
            c.readAheadGranularity = 2 * (c.cast g vote).readAheadGranularity)) := by
  unfold Ccb.cast
  dsimp only
  split_ifs with h0 hheld hsame
  · exact ⟨hn, tallied_zero _, Or.inl rfl⟩
  · obtain ⟨hrun, hsign, -, -⟩ := ht.run (hvote.resolve_left h0)
    exact ⟨hn, ⟨hheld.1, hheld.2, hsign.symm ▸ hrun⟩, Or.inl rfl⟩
  · exact ⟨hn, tallied_zero _, Or.inl rfl⟩
  · obtain ⟨hgranule, hmoved⟩ := hn.next h vote
    obtain ⟨hrun, -, hlo, hhi⟩ := ht.run (hvote.resolve_left h0)
    refine ⟨hgranule, tallied_zero _, Or.inr ⟨h0, ?_, hmoved.resolve_left hsame⟩⟩
    have habs : (nextTally c.readAheadAgreement vote).natAbs = agreement.natAbs := by
      unfold agreement at *
      omega
    rw [← habs, hrun]

/-! ### The tests of a window -/

theorem Fcb.windowVote_cases {f : Fcb} {active : ℤ} {c : Ccb} {vote : ℤ} (h : f.windowVote g active c = some vote) :
    vote = 0 ∨ vote = 1 ∨ vote = -1 := by
  unfold Fcb.windowVote at h
  dsimp only at h
  split_ifs at h <;> simp_all

/-- A window that is not closed is short of the bytes of a window. -/
theorem Fcb.consumed_of_windowVote {f : Fcb} {active : ℤ} {c : Ccb} (h : f.windowVote g active c = none)
    (hg : g.readAheadGranularity ≠ 0) (hc : c.readAheadGranularity ≠ 0) (ha : g.readAheadAdapt = true) :
    f.readAheadConsumedBytes < windowBytes c.readAheadGranularity := by
  unfold Fcb.windowVote at h
  dsimp only at h
  split_ifs at h with hoff hshort
  · simp_all
  · exact hshort

theorem windowBytes_eq (h : Sized n) : windowBytes n = max (n * windowGranules) windowFloor := by
  have hdouble := h.double_le
  unfold windowBytes
  rw [ulong64_of_lt (by unfold windowGranules; omega)]
  dsimp only
  split_ifs with hlt
  · exact (max_eq_right hlt.le).symm
  · exact (max_eq_left (not_lt.mp hlt)).symm

theorem windowBytes_le (h : Sized n) : windowBytes n ≤ 2 ^ 32 := by
  rw [windowBytes_eq h]
  exact max_le h.double_le (by decide)

/-- Whether a window's consumer never stopped asking, in numbers that do not wrap. -/
theorem Fcb.readIsGreedy_eq {f : Fcb} (h : (f.readIdleTicks + f.readBusyTicks) * 100 < 2 ^ 64) :
    f.readIsGreedy = decide (f.readIdleTicks ≠ 0 ∧
      f.readIdleTicks * 100 < (f.readIdleTicks + f.readBusyTicks) * greedyIdlePercent) := by
  unfold Fcb.readIsGreedy
  rw [ulong64_of_lt (n := f.readIdleTicks + f.readBusyTicks) (by omega), ulong64_of_lt (n := f.readIdleTicks * 100) (by omega)]
  dsimp only
  rw [ulong64_of_lt (by unfold greedyIdlePercent; omega)]
  by_cases h0 : f.readIdleTicks = 0
  · simp [h0]
  · simp [h0]

end BlorgFS.Read.Adapt
