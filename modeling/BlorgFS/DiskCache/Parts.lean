import BlorgFS.DiskCache.IndexOps

/-! How a read the disk cache takes is cut into parts, the pure arithmetic of
`BlorgDiskCacheRead`: each run of blocks in consecutive slots is read from the
cache file, each run of missing blocks is fetched. The cuts cover the read, a part
starts where the one before ended, and there are as many fetches as the plan left
runs of missing blocks. -/

namespace BlorgFS.DiskCache

def pageSize : ℕ := 4096
def maxReadFetches : ℕ := 4
def maxReadBlocks : ℕ := 64

/-- `DISK_CACHE_READ_FAILED`, `_STALE` and `_UNSTARTED`: why a read the cache began is
fetched whole after all. -/
def readFailed : ℕ := 1
def readStale : ℕ := 2
def readUnstarted : ℕ := 4

/-- The valid bytes rounded up to a page. -/
def spanOf (valid : ℕ) : ℕ := (valid + (pageSize - 1)) / pageSize * pageSize

def firstBlock (offset : ℕ) : ℕ := offset / blockSize

def lastBlock (offset valid : ℕ) : ℕ := (offset + spanOf valid - 1) / blockSize

def blocksOf (offset valid : ℕ) : ℕ := lastBlock offset valid - firstBlock offset + 1

/-- The run of a part, counted from `run` blocks already in it: blocks missing like
the first, or in the slots after the first's. -/
def runFrom (slot : Option ℕ) : ℕ → List (Option ℕ) → ℕ
  | run, [] => run
  | run, next :: rest => if next = slot.map (· + run) then runFrom slot (run + 1) rest else run

/-- One part of a read: where in the file it starts, how long it is, and the slot
its first block is in unless it is fetched. `last` says that the issue loop ends
with it whatever is left. -/
structure Part where
  start : ℕ
  length : ℕ
  slot : Option ℕ
  last : Bool
  deriving DecidableEq, Repr

/-- The block of the read `issued` bytes into it. -/
def blockAt (offset issued : ℕ) : ℕ := (offset + issued) / blockSize - firstBlock offset

/-- The run of the part that starts `issued` bytes into the read. -/
def runAt (slots : List (Option ℕ)) (i : ℕ) : ℕ := runFrom (slots.getD i none) 1 (slots.drop (i + 1))

/-- The part `BlorgDiskCacheRead` issues once `issued` bytes of the read are. -/
def partAt (offset valid : ℕ) (slots : List (Option ℕ)) (issued : ℕ) : Part :=
  let start := offset + issued
  let i := blockAt offset issued
  let slot := slots.getD i none
  let runEnd := (firstBlock offset + i + runAt slots i) * blockSize
  let stop := if slot = none then valid else spanOf valid
  let length := min (runEnd - start) (stop - issued)
  ⟨start, length, slot, slot = none ∧ stop = issued + length⟩

/-- `DiskCacheRunsToFetch`. -/
def runsToFetch (slots : List (Option ℕ)) : ℕ :=
  (List.range slots.length).foldl
    (fun runs i => if runs < maxReadFetches ∧ slots.getD i none = none ∧ (i = 0 ∨ slots.getD (i - 1) none ≠ none)
      then runs + 1 else runs) 0

/-! ### Runs of missing blocks -/

/-- The runs of missing blocks in `slots`, where `missing` says whether the block
before is missing. -/
def gaps : Bool → List (Option ℕ) → ℕ
  | _, [] => 0
  | missing, none :: slots => (if missing then 0 else 1) + gaps true slots
  | _, some _ :: slots => gaps false slots

theorem gaps_of_held {slots : List (Option ℕ)} (h : slots.countP Option.isSome = slots.length) (missing : Bool) :
    gaps missing slots = 0 := by
  induction slots generalizing missing with
  | nil => rfl
  | cons slot slots ih =>
    have hle := List.countP_le_length (p := Option.isSome) (l := slots)
    cases slot with
    | none =>
      rw [List.countP_cons_of_neg (by simp), List.length_cons] at h
      omega
    | some held =>
      rw [List.countP_cons_of_pos (by rfl), List.length_cons] at h
      exact ih (by omega) false

theorem gaps_concat (missing : Bool) (slots : List (Option ℕ)) (slot : Option ℕ) :
    gaps missing (slots ++ [slot]) = gaps missing slots +
      (if slot = none ∧ (if slots = [] then missing = false else slots.getLast? ≠ some none) then 1 else 0) := by
  induction slots generalizing missing with
  | nil => cases slot <;> cases missing <;> simp [gaps]
  | cons head rest ih =>
    cases head with
    | none =>
      rw [List.cons_append, gaps, gaps, ih]
      cases rest <;> simp [List.getLast?_cons, add_assoc]
    | some held =>
      rw [List.cons_append, gaps, gaps, ih]
      cases rest <;> simp [List.getLast?_cons]

/-- A run of missing blocks starts at block `i`. -/
def StartsGap (slots : List (Option ℕ)) (i : ℕ) : Prop :=
  slots.getD i none = none ∧ (i = 0 ∨ slots.getD (i - 1) none ≠ none)

instance (slots : List (Option ℕ)) (i : ℕ) : Decidable (StartsGap slots i) :=
  inferInstanceAs (Decidable (_ ∧ _))

theorem gaps_take_succ {slots : List (Option ℕ)} {n : ℕ} (hn : n < slots.length) :
    gaps false (slots.take (n + 1)) = gaps false (slots.take n) + if StartsGap slots n then 1 else 0 := by
  rw [List.take_succ_eq_append_getElem hn, gaps_concat]
  congr 1
  refine if_congr ?_ rfl rfl
  unfold StartsGap
  rw [List.getD_eq_getElem _ _ hn]
  by_cases h0 : n = 0
  · simp [h0]
  · have hne : slots.take n ≠ [] := by
      intro h
      have hlen := congrArg List.length h
      simp only [List.length_take, List.length_nil] at hlen
      omega
    rw [if_neg hne, List.getLast?_take, if_neg h0, List.getD_eq_getElem _ _ (by omega),
      List.getElem?_eq_getElem (by omega)]
    simp [h0]

theorem scanStep_runs (slots : List (Option ℕ)) (scan : Index.Scan) (i : ℕ) :
    (Index.scanStep slots scan i).runs = scan.runs + if StartsGap slots i then 1 else 0 := by
  unfold Index.scanStep
  split
  next h =>
    rw [if_neg, Nat.add_zero]
    rintro ⟨hi, hprev⟩
    exact h.elim (fun hne => hne hi) fun hne => hprev.elim hne.1 fun hp => hp hne.2
  next h =>
    rw [not_or, not_not, not_and_or, not_not] at h
    have hs : StartsGap slots i := h
    rw [if_pos hs]
    simp only
    split <;> rfl

/-- The scan of `BlorgDiskCacheIndexPlanRead` counts the runs of missing blocks. -/
theorem scan_runs (slots : List (Option ℕ)) : (Index.scan slots).runs = gaps false slots := by
  suffices ∀ n ≤ slots.length,
      ((List.range n).foldl (Index.scanStep slots) ⟨0, 0, 2 ^ 32 - 1⟩).runs = gaps false (slots.take n) by
    have h := this _ le_rfl
    rwa [List.take_length] at h
  intro n
  induction n with
  | zero => intro _; rfl
  | succ n ih =>
    intro hn
    rw [List.range_succ, List.foldl_append, List.foldl_cons, List.foldl_nil, scanStep_runs, ih (by omega),
      gaps_take_succ hn]

/-- What the read is told it would have to fetch is as many runs as there are, up to
the most one read may. -/
theorem runsToFetch_eq (slots : List (Option ℕ)) : runsToFetch slots = min maxReadFetches (gaps false slots) := by
  suffices ∀ n ≤ slots.length, (List.range n).foldl
      (fun runs i => if runs < maxReadFetches ∧ StartsGap slots i then runs + 1 else runs) 0 =
        min maxReadFetches (gaps false (slots.take n)) by
    have h := this _ le_rfl
    rwa [List.take_length] at h
  intro n
  induction n with
  | zero => intro _; rfl
  | succ n ih =>
    intro hn
    rw [List.range_succ, List.foldl_append, List.foldl_cons, List.foldl_nil, ih (by omega), gaps_take_succ hn]
    by_cases hs : StartsGap slots n
    · simp only [hs, and_true, if_true]
      split <;> omega
    · simp [hs]

/-! ### The plan -/

/-- The rounds of `BlorgDiskCacheIndexPlanRead` without the index they unpin in. -/
def planSlots (maxRuns : ℕ) : ℕ → List (Option ℕ) → ℤ → Option (ℤ × List (Option ℕ))
  | 0, _, _ => none
  | fuel + 1, slots, held =>
    let plan := Index.scan slots
    if plan.runs ≤ maxRuns then some (held, slots)
    else planSlots maxRuns fuel (Index.giveUp slots plan.gapStart plan.gapLength) (held - plan.gapLength)

theorem planSlots_of_planRounds {maxRuns fuel : ℕ} {idx idx' : Index} {slots slots' : List (Option ℕ)} {held held' : ℤ}
    (h : Index.planRounds maxRuns fuel idx slots held = some (held', slots', idx')) :
    planSlots maxRuns fuel slots held = some (held', slots') := by
  induction fuel generalizing idx slots held with
  | zero => cases h
  | succ fuel ih =>
    simp only [Index.planRounds] at h
    simp only [planSlots]
    split at h
    next hle =>
      cases h
      rw [if_pos hle]
    next hle =>
      obtain ⟨idx₁, -, h⟩ := Option.bind_eq_some_iff.mp h
      rw [if_neg hle]
      exact ih h

/-- The plan ends with at most `maxRuns` runs to fetch. -/
theorem planSlots_spec {maxRuns fuel : ℕ} {slots : List (Option ℕ)} (held : ℤ) (hlen : slots.length < 2 ^ 32)
    (hruns : 1 ≤ maxRuns ∨ gaps false slots = 0) (hfuel : slots.countP Option.isSome < fuel) :
    ∃ held' slots', planSlots maxRuns fuel slots held = some (held', slots') ∧
      slots'.length = slots.length ∧ gaps false slots' ≤ maxRuns := by
  induction fuel generalizing slots held with
  | zero => omega
  | succ fuel ih =>
    by_cases hle : (Index.scan slots).runs ≤ maxRuns
    · exact ⟨held, slots, by simp [planSlots, hle], rfl, scan_runs slots ▸ hle⟩
    · have hone : 1 ≤ maxRuns := by
        rw [scan_runs] at hle
        omega
      have hgap := (Index.scan_inv slots hlen).gap (by omega)
      have hcount := Index.heldCount_giveUp hgap
      have hlength := (Index.giveUp_givenUp slots hgap.le).length_eq
      obtain ⟨held', slots', he, hl, hr⟩ := @ih (Index.giveUp slots (Index.scan slots).gapStart (Index.scan slots).gapLength)
        (held - (Index.scan slots).gapLength) (by omega) (Or.inl hone) (by have := hgap.pos; omega)
      exact ⟨held', slots', by simp only [planSlots, if_neg hle]; exact he, hl.trans hlength.symm, hr⟩

/-! ### Cuts -/

theorem le_runFrom (slot : Option ℕ) (run : ℕ) (rest : List (Option ℕ)) : run ≤ runFrom slot run rest := by
  induction rest generalizing run with
  | nil => exact Nat.le_refl run
  | cons next rest ih =>
    simp only [runFrom]
    split
    · exact (Nat.le_succ run).trans (ih (run + 1))
    · exact Nat.le_refl run

theorem runFrom_le (slot : Option ℕ) (run : ℕ) (rest : List (Option ℕ)) :
    runFrom slot run rest ≤ run + rest.length := by
  induction rest generalizing run with
  | nil => exact Nat.le_refl run
  | cons next rest ih =>
    simp only [runFrom, List.length_cons]
    split
    · have := ih (run + 1)
      omega
    · omega

/-- The blocks of a run after its first. -/
theorem getElem_of_lt_runFrom {slot : Option ℕ} {run k : ℕ} {rest : List (Option ℕ)} (hk : run + k < runFrom slot run rest) :
    rest.getD k none = slot.map (· + (run + k)) := by
  induction rest generalizing run k with
  | nil =>
    simp only [runFrom] at hk
    omega
  | cons next rest ih =>
    simp only [runFrom] at hk
    split at hk
    next hnext =>
      cases k with
      | zero => simpa using hnext
      | succ k =>
        have := @ih (run + 1) k (by omega)
        rw [List.getD_cons_succ, this]
        congr 2
        funext slot
        omega
    next => omega

/-- A fetched run takes one run of missing blocks off, a run read from the file
takes none. -/
theorem gaps_runFrom (slot : Option ℕ) (run : ℕ) (rest : List (Option ℕ)) :
    gaps slot.isNone rest = gaps false (rest.drop (runFrom slot run rest - run)) := by
  induction rest generalizing run with
  | nil => simp [gaps]
  | cons next rest ih =>
    simp only [runFrom]
    split
    next hnext =>
      have hle := le_runFrom slot (run + 1) rest
      obtain ⟨k, hk⟩ := Nat.exists_eq_add_of_le hle
      have hih := ih (run + 1)
      rw [hk] at hih ⊢
      rw [show run + 1 + k - run = k + 1 by omega, List.drop_succ_cons, ← show run + 1 + k - (run + 1) = k by omega,
        ← hih, hnext]
      cases slot <;> simp [gaps]
    next hnext =>
      rw [Nat.sub_self, List.drop_zero]
      cases slot with
      | none =>
        cases next with
        | none => exact absurd rfl hnext
        | some held => rfl
      | some held => rfl

theorem runAt_pos (slots : List (Option ℕ)) (i : ℕ) : 1 ≤ runAt slots i := le_runFrom _ _ _

theorem add_runAt_le {slots : List (Option ℕ)} {i : ℕ} (hi : i < slots.length) : i + runAt slots i ≤ slots.length := by
  have h := runFrom_le (slots.getD i none) 1 (slots.drop (i + 1))
  rw [List.length_drop] at h
  unfold runAt
  omega

theorem gaps_runAt {slots : List (Option ℕ)} {i : ℕ} (hi : i < slots.length) :
    gaps false (slots.drop i) =
      (if slots.getD i none = none then 1 else 0) + gaps false (slots.drop (i + runAt slots i)) := by
  have hrun := gaps_runFrom (slots.getD i none) 1 (slots.drop (i + 1))
  have hpos := runAt_pos slots i
  rw [List.drop_drop, show i + 1 + (runFrom (slots.getD i none) 1 (slots.drop (i + 1)) - 1) = i + runAt slots i by
    unfold runAt at hpos ⊢; omega] at hrun
  rw [← hrun, List.getD_eq_getElem _ _ hi, List.drop_eq_getElem_cons hi]
  cases slots[i] <;> simp [gaps]

/-! ### Parts -/

/-- The issue loop may cut the next part `issued` bytes into the read. -/
structure Cut (offset valid : ℕ) (slots : List (Option ℕ)) (issued : ℕ) : Prop where
  blocks : slots.length = blocksOf offset valid
  page : offset % pageSize = 0
  lt : issued < spanOf valid
  aligned : issued = 0 ∨ (offset + issued) % blockSize = 0

section Cut

variable {offset valid issued : ℕ} {slots : List (Option ℕ)}

theorem Cut.init (hb : slots.length = blocksOf offset valid) (hp : offset % pageSize = 0) (hv : 0 < valid) :
    Cut offset valid slots 0 :=
  ⟨hb, hp, by unfold spanOf pageSize; omega, Or.inl rfl⟩

theorem block_eq (offset issued : ℕ) : firstBlock offset + blockAt offset issued = (offset + issued) / blockSize := by
  unfold blockAt firstBlock
  have : offset / blockSize ≤ (offset + issued) / blockSize := Nat.div_le_div_right (Nat.le_add_right _ _)
  omega

/-- Where the run of the part at `issued` ends. -/
def runEndAt (offset : ℕ) (slots : List (Option ℕ)) (issued : ℕ) : ℕ :=
  (firstBlock offset + blockAt offset issued + runAt slots (blockAt offset issued)) * blockSize

theorem lt_runEndAt (offset : ℕ) (slots : List (Option ℕ)) (issued : ℕ) :
    offset + issued < runEndAt offset slots issued := by
  have hrun := runAt_pos slots (blockAt offset issued)
  unfold runEndAt
  rw [block_eq]
  unfold blockSize blockShift
  omega

variable (h : Cut offset valid slots issued)

include h

theorem Cut.blockAt_lt : blockAt offset issued < slots.length := by
  have hlt := h.lt
  have hle : (offset + issued) / blockSize ≤ lastBlock offset valid := Nat.div_le_div_right (by omega)
  have hb := block_eq offset issued
  rw [h.blocks]
  unfold blocksOf
  omega

/-- A part starts within the valid bytes. -/
theorem Cut.lt_valid : issued < valid := by
  have hlt := h.lt
  have hp := h.page
  have ha := h.aligned
  unfold spanOf at hlt
  unfold pageSize at hlt hp
  unfold blockSize blockShift at ha
  omega

/-- The read's last block is its last run's. -/
theorem Cut.runEndAt_le : runEndAt offset slots issued ≤ (lastBlock offset valid + 1) * blockSize := by
  have hle := add_runAt_le h.blockAt_lt
  have hb := block_eq offset issued
  have hfirst : firstBlock offset ≤ lastBlock offset valid := by
    have hlt := h.lt
    exact Nat.div_le_div_right (by omega)
  rw [h.blocks] at hle
  unfold blocksOf at hle
  unfold runEndAt
  exact Nat.mul_le_mul_right _ (by omega)

/-- What the issue loop does with one part: it is not empty, stays within the read,
and either ends the loop with every valid byte issued or leaves it at the end of the
part's run. -/
structure Cut.Step (offset valid : ℕ) (slots : List (Option ℕ)) (issued : ℕ) (part : Part) : Prop where
  start : part.start = offset + issued
  slot : part.slot = slots.getD (blockAt offset issued) none
  pos : 0 < part.length
  inRun : offset + issued + part.length ≤ runEndAt offset slots issued
  fetched : part.slot = none → issued + part.length ≤ valid
  read : part.slot ≠ none → issued + part.length ≤ spanOf valid
  done : part.last = true ∨ spanOf valid ≤ issued + part.length → valid ≤ issued + part.length
  last : part.last = true → part.slot = none
  next : part.last = false → issued + part.length < spanOf valid →
    Cut offset valid slots (issued + part.length) ∧
      blockAt offset (issued + part.length) = blockAt offset issued + runAt slots (blockAt offset issued)

theorem Cut.step : Cut.Step offset valid slots issued (partAt offset valid slots issued) := by
  have hlt := h.lt
  have hvalid := h.lt_valid
  have hend := lt_runEndAt offset slots issued
  have hspan : valid ≤ spanOf valid := by unfold spanOf pageSize; omega
  have hmul : runEndAt offset slots issued % blockSize = 0 := Nat.mul_mod_left _ _
  have hlen : (partAt offset valid slots issued).length = min (runEndAt offset slots issued - (offset + issued))
      ((if slots.getD (blockAt offset issued) none = none then valid else spanOf valid) - issued) := rfl
  have hslot : (partAt offset valid slots issued).slot = slots.getD (blockAt offset issued) none := rfl
  have hlast : (partAt offset valid slots issued).last = true ↔ slots.getD (blockAt offset issued) none = none ∧
      (if slots.getD (blockAt offset issued) none = none then valid else spanOf valid) =
        issued + (partAt offset valid slots issued).length := by
    rw [hlen]
    exact decide_eq_true_iff
  refine ⟨rfl, rfl, ?_, ?_, ?_, ?_, ?_, fun hl => (hlast.mp hl).1, ?_⟩
  · rw [hlen]
    split <;> omega
  · rw [hlen]
    omega
  · intro hs
    rw [hslot] at hs
    rw [hlen, if_pos hs]
    omega
  · intro hs
    rw [hslot] at hs
    rw [hlen, if_neg hs]
    omega
  · rintro (hl | hl)
    · obtain ⟨hs, he⟩ := hlast.mp hl
      rw [if_pos hs] at he
      omega
    · omega
  · intro hl hmore
    have hatEnd : offset + (issued + (partAt offset valid slots issued).length) = runEndAt offset slots issued := by
      by_cases hs : slots.getD (blockAt offset issued) none = none
      · have hne : ¬ (valid = issued + (partAt offset valid slots issued).length) := by
          intro he
          rw [hlast.mpr ⟨hs, by rw [if_pos hs]; exact he⟩] at hl
          cases hl
        rw [if_pos hs] at hlen
        omega
      · rw [if_neg hs] at hlen
        omega
    refine ⟨⟨h.blocks, h.page, hmore, Or.inr (by rw [hatEnd]; exact hmul)⟩, ?_⟩
    have hb := block_eq offset (issued + (partAt offset valid slots issued).length)
    rw [hatEnd, runEndAt, Nat.mul_div_cancel _ (by unfold blockSize blockShift; omega)] at hb
    omega

end Cut

end BlorgFS.DiskCache
