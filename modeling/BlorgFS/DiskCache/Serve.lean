import BlorgFS.DiskCache.Parts
import BlorgFS.DiskCache.Plan
import BlorgFS.DiskCache.IndexRuns
import BlorgFS.Lib.Tiling
import BlorgFS.Lib.Word

/-! `BlorgDiskCacheRead` from its checks to its last part, in machine words: what it orders
from the cache file and the server, and what it counts on the way. A subtraction that would
borrow and an index past the end of an array have no result. -/

namespace BlorgFS.DiskCache

open Lib

/-! ### Data -/

/-- The arguments of `BlorgDiskCacheRead`; `fetches` is `*Fetches`, and `mdl` the byte offset
of the IRP's MDL, if it has one. -/
structure ReadRequest where
  key : Key
  offset : ℕ
  length : ℕ
  valid : ℕ
  fetches : ℕ
  mdl : Option ℕ

/-- What `DiskCacheReadPart` finds: the mapping or the MDL it needs, and the device or the
client that takes the part. -/
structure PartAnswer where
  resources : Bool
  started : Bool

/-- What `BlorgDiskCacheRead` finds: `DiskCache.Live`, `DiskCacheEnter`, the pool, and then one
answer for each part. -/
structure ReadAnswers where
  live : Bool
  enter : Bool
  pool : Bool
  parts : ℕ → PartAnswer

/-- A part under way: where in the read's buffer it goes, where in the file it starts, its
length, and where in the cache file it is read, unless it is fetched. -/
structure Order where
  target : ℕ
  start : ℕ
  length : ℕ
  diskOffset : Option ℕ
  deriving DecidableEq, Repr

/-- `DISK_CACHE_READ`, as the issue loop leaves it, with the parts under way. -/
structure Reading where
  slots : List (Option ℕ)
  span : ℕ
  diskSpan : ℕ
  fetchCount : ℕ
  refetch : ℕ
  orders : List Order
  deriving DecidableEq, Repr

/-- How the call ends, with `*Fetches`. -/
inductive ReadOutcome where
  | declined (fetches : ℕ)
  | taken (read : Reading)
  deriving DecidableEq, Repr

/-! ### The code -/

/-- `DiskCacheReadPart`, and whether the part was started. -/
def readPart (ans : PartAnswer) (offset start length : ℕ) (slot : Option ℕ) (read : Reading) : Option (Reading × Bool) := do
  let target ← minus start offset
  match slot with
  | none =>
    if ans.resources = false then return (read, false)
    if maxReadFetches ≤ read.fetchCount then none
    let read := { read with fetchCount := read.fetchCount + 1 }
    if ans.started = false then return (read, false)
    return ({ read with orders := read.orders ++ [⟨target, start, length, none⟩] }, true)
  | some slot =>
    if ans.resources = false ∨ ans.started = false then return (read, false)
    let diskOffset := slot * blockSize + start % blockSize
    return ({ read with orders := read.orders ++ [⟨target, start, length, some diskOffset⟩] }, true)

/-- The issue loop of `BlorgDiskCacheRead`, `issued` bytes into the read. `none` within is a
read whose first part was not started. -/
def issueLoop (offset valid : ℕ) (parts : ℕ → PartAnswer) : ℕ → ℕ → Reading → Option (Option Reading)
  | 0, _, _ => none
  | fuel + 1, issued, read =>
    let span := spanOf valid
    if issued < span then do
      let start := ulong64 (offset + issued)
      let i ← minus (start / blockSize) (firstBlock offset)
      if read.slots.length ≤ i then none
      let slot := read.slots.getD i none
      let runEnd := ulong64 ((firstBlock offset + i + runAt read.slots i) * blockSize)
      let stop := if slot = none then valid else span
      let length := ulong (min (← minus runEnd start) (← minus stop issued))
      let (read, started) ← readPart (parts read.orders.length) offset start length slot read
      if started = false then
        if issued = 0 then return none
        return some { read with refetch := read.refetch ||| readUnstarted }
      let read := { read with span := ulong (read.span + length) }
      let diskSpan ← if slot ≠ none ∧ issued < valid then
          (minus valid issued).map fun left => ulong (read.diskSpan + min length left)
        else some read.diskSpan
      let read := { read with diskSpan := diskSpan }
      if slot = none ∧ stop = ulong (issued + length) then return some read
      issueLoop offset valid parts fuel (ulong (issued + length)) read
    else return some read

/-- What of the blocks pinned is served: `*Fetches`, how many they are and their slots. -/
def Index.planServed (idx : Index) (slots : List (Option ℕ)) (held blocks allowed : ℕ) : Option (ℕ × ℤ × List (Option ℕ) × Index) :=
  if held = 0 then some (0, 0, slots, idx)
  else if allowed = 0 ∧ held ≠ blocks then some (runsToFetch slots, 0, slots, idx)
  else (idx.planRead slots held allowed).map fun (served, slots, idx) => (0, served, slots, idx)

/-- The checks of `BlorgDiskCacheRead`, up to its allocation. -/
def readAdmitted (ans : ReadAnswers) (q : ReadRequest) : Option Bool :=
  if ans.live = false ∨ q.mdl = none ∨ q.valid = 0 ∨ q.length < q.valid ∨ q.key.size ≤ q.offset then some false
  else (minus q.key.size q.offset).map fun rest =>
    q.valid ≤ rest ∧ q.offset % pageSize = 0 ∧ q.length % pageSize = 0 ∧ q.mdl = some 0 ∧
      blocksOf q.offset q.valid ≤ maxReadBlocks ∧ ans.enter = true ∧ ans.pool = true

/-- Unpins what is held of a read and leaves it to the caller. -/
def declineRead (fetches : ℕ) (slots : List (Option ℕ)) (idx : Index) : Option (ReadOutcome × Index) :=
  (idx.unpin false slots).map fun idx => (.declined fetches, idx)

/-- `BlorgDiskCacheRead` after its checks. Every part takes a block of its own at least. -/
def readBlocks (ans : ReadAnswers) (idx : Index) (q : ReadRequest) : Option (ReadOutcome × Index) := do
  let blocks := blocksOf q.offset q.valid
  let key := { q.key with block := firstBlock q.offset }
  let (slots, held, idx) ← idx.pinHeld key (lastBlock q.offset q.valid)
  let (fetches, served, slots, idx) ← idx.planServed slots held blocks q.fetches
  if served = 0 then declineRead fetches slots idx
  else
    match ← issueLoop q.offset q.valid ans.parts (blocks + 1) 0 ⟨slots, 0, 0, 0, 0, []⟩ with
    | none => declineRead 0 slots idx
    | some read => return (.taken read, idx)

/-- `BlorgDiskCacheRead`. -/
def diskCacheRead (ans : ReadAnswers) (idx : Index) (q : ReadRequest) : Option (ReadOutcome × Index) := do
  if ← readAdmitted ans q then readBlocks ans idx q
  else return (.declined 0, idx)

/-! ### What is ordered -/

/-- The block of the read that byte `p` of the file is in. -/
def blockOf (offset p : ℕ) : ℕ := p / blockSize - firstBlock offset

/-- The bytes among the first `n` of the read whose blocks are held. -/
def heldBytes (offset : ℕ) (slots : List (Option ℕ)) (n : ℕ) : ℕ :=
  (List.range n).countP fun j => (slots.getD (blockOf offset (offset + j)) none).isSome

/-- A part goes where its bytes belong and stays within the read. A fetched one is missing and
stops at the valid bytes, one read from the cache file finds each byte in its block's slot. -/
structure Order.Sound (offset valid : ℕ) (slots : List (Option ℕ)) (o : Order) : Prop where
  target : offset + o.target = o.start
  inside : o.start + o.length ≤ offset + spanOf valid
  fetched : o.diskOffset = none → o.start + o.length ≤ offset + valid ∧
    ∀ k < o.length, slots.getD (blockOf offset (o.start + k)) none = none
  read : ∀ diskOffset, o.diskOffset = some diskOffset → ∀ k < o.length, ∃ slot,
    slots.getD (blockOf offset (o.start + k)) none = some slot ∧ diskOffset + k = slot * blockSize + (o.start + k) % blockSize

/-- The first `issued` bytes of the read are ordered, and counted. -/
structure Underway (offset valid : ℕ) (slots : List (Option ℕ)) (issued : ℕ) (read : Reading) : Prop where
  same : read.slots = slots
  tiles : Tiles Order.start Order.length offset read.orders (offset + issued)
  sound : ∀ o ∈ read.orders, o.Sound offset valid slots
  span : read.span = issued
  diskSpan : read.diskSpan = heldBytes offset slots (min issued valid)
  fetchCount : read.fetchCount = read.orders.countP fun o => o.diskOffset.isNone
  refetch : read.refetch = 0

section Underway

variable {offset valid issued : ℕ} {slots : List (Option ℕ)} {part : Part} {read : Reading} {parts : ℕ → PartAnswer}

/-- The order for a part. -/
def Part.order (issued : ℕ) (part : Part) : Order :=
  ⟨issued, part.start, part.length, part.slot.map fun slot => slot * blockSize + part.start % blockSize⟩

/-- The read with one more part under way. -/
def Reading.issue (valid issued : ℕ) (part : Part) (read : Reading) : Reading :=
  { read with
    span := read.span + part.length
    diskSpan := read.diskSpan + if part.slot = none then 0 else min part.length (valid - issued)
    fetchCount := read.fetchCount + if part.slot = none then 1 else 0
    orders := read.orders ++ [part.order issued] }

/-- The blocks of a run, from its first. -/
theorem getD_of_lt_runAt {i k : ℕ} (hk : k < runAt slots i) : slots.getD (i + k) none = (slots.getD i none).map (· + k) := by
  cases k with
  | zero => simp
  | succ k =>
    have hrun : 1 + k < runFrom (slots.getD i none) 1 (slots.drop (i + 1)) := by
      unfold runAt at hk
      omega
    have hnext := getElem_of_lt_runFrom hrun
    rw [List.getD_eq_getElem?_getD, List.getElem?_drop, ← List.getD_eq_getElem?_getD] at hnext
    rw [show i + (k + 1) = i + 1 + k by omega, hnext, Nat.add_comm k 1]

/-- The block of a byte of the part at `issued`. -/
theorem blockOf_part (hstep : Cut.Step offset valid slots issued part) {k : ℕ} (hk : k < part.length) :
    ∃ m < runAt slots (blockAt offset issued), blockOf offset (offset + issued + k) = blockAt offset issued + m ∧
      (offset + issued + k) / blockSize = (offset + issued) / blockSize + m := by
  have hin := hstep.inRun
  unfold runEndAt at hin
  rw [block_eq] at hin
  have hle : (offset + issued) / blockSize ≤ (offset + issued + k) / blockSize := Nat.div_le_div_right (Nat.le_add_right _ _)
  have hlt : (offset + issued + k) / blockSize < (offset + issued) / blockSize + runAt slots (blockAt offset issued) :=
    Nat.div_lt_of_lt_mul (by rw [Nat.mul_comm]; omega)
  have hfirst := block_eq offset issued
  exact ⟨(offset + issued + k) / blockSize - (offset + issued) / blockSize, by omega, by unfold blockOf; omega, by omega⟩

/-- What the slot of a byte's block is, for a byte of the part at `issued`. -/
theorem getD_part (hstep : Cut.Step offset valid slots issued part) {k : ℕ} (hk : k < part.length) :
    ∃ m, (offset + issued + k) / blockSize = (offset + issued) / blockSize + m ∧
      slots.getD (blockOf offset (offset + issued + k)) none = part.slot.map (· + m) := by
  obtain ⟨m, hm, hblock, hdiv⟩ := blockOf_part hstep hk
  exact ⟨m, hdiv, by rw [hblock, getD_of_lt_runAt hm, hstep.slot]⟩

theorem Part.sound (hstep : Cut.Step offset valid slots issued part) : (part.order issued).Sound offset valid slots := by
  have hspan : valid ≤ spanOf valid := by unfold spanOf pageSize; omega
  have hstart := hstep.start
  refine ⟨hstart.symm, ?_, fun hnone => ?_, fun diskOffset hsome k hk => ?_⟩
  · have hfetched := hstep.fetched
    have hread := hstep.read
    simp only [Part.order, hstart]
    by_cases hslot : part.slot = none
    · have := hfetched hslot
      omega
    · have := hread hslot
      omega
  · have hslot : part.slot = none := Option.map_eq_none_iff.mp hnone
    have hfetched := hstep.fetched hslot
    simp only [Part.order, hstart]
    refine ⟨by omega, fun k hk => ?_⟩
    obtain ⟨m, -, hget⟩ := getD_part hstep hk
    rw [hget, hslot]
    rfl
  · obtain ⟨slot, hslot, rfl⟩ := Option.map_eq_some_iff.mp hsome
    obtain ⟨m, hdiv, hget⟩ := getD_part hstep hk
    simp only [Part.order, hstart] at hk ⊢
    refine ⟨slot + m, by rw [hget, hslot]; rfl, ?_⟩
    unfold blockSize blockShift at hdiv ⊢
    omega

theorem heldBytes_part (hstep : Cut.Step offset valid slots issued part) {n : ℕ} (hn : n ≤ part.length) :
    heldBytes offset slots (issued + n) = heldBytes offset slots issued + if part.slot = none then 0 else n := by
  have hbyte : ∀ k < n, (slots.getD (blockOf offset (offset + (issued + k))) none).isSome = part.slot.isSome := fun k hk => by
    obtain ⟨m, -, hget⟩ := getD_part hstep (hk.trans_le hn)
    rw [← Nat.add_assoc, hget, Option.isSome_map]
  unfold heldBytes
  rw [List.range_add, List.countP_append, List.countP_map]
  congr 1
  have hcongr : (List.range n).countP ((fun j => (slots.getD (blockOf offset (offset + j)) none).isSome) ∘ fun k => issued + k) =
      (List.range n).countP fun _ => part.slot.isSome := List.countP_congr fun k hk => by
    rw [Function.comp, hbyte k (List.mem_range.mp hk)]
  rw [hcongr]
  cases part.slot <;> simp

/-- One part more. -/
theorem Underway.step (h : Underway offset valid slots issued read) (hcut : Cut offset valid slots issued)
    (hstep : Cut.Step offset valid slots issued part) :
    Underway offset valid slots (issued + part.length) (read.issue valid issued part) := by
  have hlt := hcut.lt_valid
  refine ⟨h.same, ?_, fun o ho => ?_, congrArg (· + part.length) h.span, ?_, ?_, h.refetch⟩
  · have := h.tiles.concat (x := part.order issued) hstep.start hstep.pos
    rwa [Nat.add_assoc] at this
  · rcases List.mem_append.mp ho with hold | hnew
    · exact h.sound o hold
    · rw [List.mem_singleton.mp hnew]
      exact Part.sound hstep
  · have hmin : min (issued + part.length) valid = issued + min part.length (valid - issued) := by omega
    rw [hmin, heldBytes_part hstep (Nat.min_le_left _ _)]
    simp only [Reading.issue, h.diskSpan]
    rw [Nat.min_eq_left hlt.le]
  · simp only [Reading.issue, h.fetchCount, List.countP_append, List.countP_singleton, Part.order]
    cases part.slot <;> simp

/-- `DiskCacheReadPart`, when the part starts. -/
theorem readPart_started (hstep : Cut.Step offset valid slots issued part) (hfew : part.slot = none → read.fetchCount < maxReadFetches) :
    readPart ⟨true, true⟩ offset part.start part.length part.slot read = some ({ read with
      fetchCount := read.fetchCount + if part.slot = none then 1 else 0
      orders := read.orders ++ [part.order issued] }, true) := by
  have htarget : minus part.start offset = some issued := by
    rw [hstep.start, minus_of_le (Nat.le_add_right _ _), Nat.add_sub_cancel_left]
  unfold readPart Part.order
  rw [htarget]
  cases hslot : part.slot with
  | none => simp [not_le.mpr (hfew hslot)]
  | some slot => simp

/-- One round of the issue loop, when its part starts. -/
theorem issueLoop_succ (fuel : ℕ) (hend : offset + spanOf valid + blockSize ≤ 2 ^ 64) (hspan : spanOf valid < 2 ^ 32)
    (hparts : ∀ n, parts n = ⟨true, true⟩) (h : Underway offset valid slots issued read) (hcut : Cut offset valid slots issued)
    (hfew : (partAt offset valid slots issued).slot = none → read.fetchCount < maxReadFetches) :
    issueLoop offset valid parts (fuel + 1) issued read =
      if (partAt offset valid slots issued).last = true then some (some (read.issue valid issued (partAt offset valid slots issued)))
      else issueLoop offset valid parts fuel (issued + (partAt offset valid slots issued).length)
        (read.issue valid issued (partAt offset valid slots issued)) := by
  have hstep := hcut.step
  have hlt := hcut.lt
  have hvalid := hcut.lt_valid
  have hrunEnd := hcut.runEndAt_le
  have hstart := lt_runEndAt offset slots issued
  have hlast : (lastBlock offset valid + 1) * blockSize < offset + spanOf valid + blockSize := by
    unfold lastBlock blockSize blockShift
    omega
  have hw : ulong64 (offset + issued) = offset + issued := ulong64_of_lt (by omega)
  have hi : minus ((offset + issued) / blockSize) (firstBlock offset) = some (blockAt offset issued) :=
    minus_of_le (Nat.div_le_div_right (Nat.le_add_right _ _))
  have hrun : ulong64 ((firstBlock offset + blockAt offset issued + runAt slots (blockAt offset issued)) * blockSize) =
      runEndAt offset slots issued := ulong64_of_lt (show runEndAt offset slots issued < 2 ^ 64 by omega)
  have hleft : minus (runEndAt offset slots issued) (offset + issued) = some (runEndAt offset slots issued - (offset + issued)) :=
    minus_of_le hstart.le
  have hrest : minus (if slots.getD (blockAt offset issued) none = none then valid else spanOf valid) issued =
      some ((if slots.getD (blockAt offset issued) none = none then valid else spanOf valid) - issued) :=
    minus_of_le (by split <;> omega)
  have hle : issued + (partAt offset valid slots issued).length ≤ spanOf valid := by
    have hfetched := hstep.fetched
    have hread := hstep.read
    by_cases hslot : (partAt offset valid slots issued).slot = none
    · have := hfetched hslot
      unfold spanOf pageSize at *
      omega
    · exact hread hslot
  have hlength : ulong (min (runEndAt offset slots issued - (offset + issued))
      ((if slots.getD (blockAt offset issued) none = none then valid else spanOf valid) - issued)) =
        (partAt offset valid slots issued).length :=
    ulong_of_lt (show (partAt offset valid slots issued).length < 2 ^ 32 by omega)
  have hissued : ulong (issued + (partAt offset valid slots issued).length) = issued + (partAt offset valid slots issued).length :=
    ulong_of_lt (by omega)
  have hpart := readPart_started hstep hfew
  have hslot : (partAt offset valid slots issued).slot = slots.getD (blockAt offset issued) none := hstep.slot
  rw [hslot, hstep.start] at hpart
  rw [issueLoop, if_pos hlt]
  simp only [hw, hi, h.same, Option.bind_eq_bind, Option.bind_some, if_neg (not_le.mpr hcut.blockAt_lt), hrun, hleft, hrest, hlength,
    hparts, hpart, Option.pure_def, hissued]
  have hlastIff : (partAt offset valid slots issued).last = true ↔ slots.getD (blockAt offset issued) none = none ∧
      (if slots.getD (blockAt offset issued) none = none then valid else spanOf valid) =
        issued + (partAt offset valid slots issued).length := decide_eq_true_iff
  have hspanned : ulong (read.span + (partAt offset valid slots issued).length) = read.span + (partAt offset valid slots issued).length := by
    rw [h.span]
    exact hissued
  have hbelow : minus valid issued = some (valid - issued) := minus_of_le hvalid.le
  have hcounted : ulong (read.diskSpan + min (partAt offset valid slots issued).length (valid - issued)) =
      read.diskSpan + min (partAt offset valid slots issued).length (valid - issued) := by
    have : read.diskSpan ≤ issued := by
      rw [h.diskSpan]
      exact List.countP_le_length.trans (by rw [List.length_range]; omega)
    exact ulong_of_lt (by omega)
  rw [if_neg (by decide), hspanned, hbelow, Option.map_some, hcounted]
  unfold Reading.issue
  rw [hslot, h.same]
  by_cases hnone : slots.getD (blockAt offset issued) none = none
  · rw [if_neg (fun hheld => hheld.1 hnone)]
    simp only [hnone, if_true, Nat.add_zero]
    simp only [hnone, if_true] at hlastIff
    simp only [hlastIff]
  · rw [if_pos ⟨hnone, hvalid⟩]
    simp only [hnone, false_and, if_false, Option.bind_some, hlastIff]

/-- A part that brings the read to its valid bytes is of the last run. -/
theorem Cut.Step.last_run (hstep : Cut.Step offset valid slots issued part) (hcut : Cut offset valid slots issued)
    (hdone : valid ≤ issued + part.length) : slots.length ≤ blockAt offset issued + runAt slots (blockAt offset issued) := by
  have hin := hstep.inRun
  have hpage := hcut.page
  have hlt := hcut.lt_valid
  have hblocks := hcut.blocks
  unfold runEndAt at hin
  unfold blocksOf lastBlock firstBlock spanOf at hblocks
  unfold firstBlock at hin
  unfold pageSize blockSize blockShift at *
  omega

/-- The issue loop ends, with all of the read ordered and a fetch for each run of missing blocks. -/
theorem issueLoop_spec {fuel : ℕ} (hend : offset + spanOf valid + blockSize ≤ 2 ^ 64) (hspan : spanOf valid < 2 ^ 32)
    (hparts : ∀ n, parts n = ⟨true, true⟩) (hgaps : gaps false slots ≤ maxReadFetches) (h : Underway offset valid slots issued read)
    (hcut : Cut offset valid slots issued) (hcount : read.fetchCount + gaps false (slots.drop (blockAt offset issued)) = gaps false slots)
    (hfuel : slots.length < fuel + blockAt offset issued) :
    ∃ issued' read', issueLoop offset valid parts fuel issued read = some (some read') ∧
      Underway offset valid slots issued' read' ∧ valid ≤ issued' ∧ issued' ≤ spanOf valid ∧ read'.fetchCount = gaps false slots := by
  induction fuel generalizing issued read with
  | zero =>
    have := hcut.blockAt_lt
    omega
  | succ fuel ih =>
    have hstep := hcut.step
    have hi := hcut.blockAt_lt
    have hruns := gaps_runAt hi
    have hslot : (partAt offset valid slots issued).slot = slots.getD (blockAt offset issued) none := hstep.slot
    have hrunPos := runAt_pos slots (blockAt offset issued)
    set part := partAt offset valid slots issued with hpartAt
    have hfew : part.slot = none → read.fetchCount < maxReadFetches := fun hnone => by
      rw [hslot] at hnone
      rw [if_pos hnone] at hruns
      omega
    have hnext := h.step hcut hstep
    have hcount' : (read.issue valid issued part).fetchCount +
        gaps false (slots.drop (blockAt offset issued + runAt slots (blockAt offset issued))) = gaps false slots := by
      simp only [Reading.issue, hslot]
      omega
    have hover : valid ≤ issued + part.length → (read.issue valid issued part).fetchCount = gaps false slots := fun hdone => by
      have := hstep.last_run hcut hdone
      rw [List.drop_eq_nil_of_le this] at hcount'
      exact hcount'
    have hwithin : issued + part.length ≤ spanOf valid := by
      by_cases hnone : part.slot = none
      · have := hstep.fetched hnone
        unfold spanOf pageSize
        omega
      · exact hstep.read hnone
    rw [issueLoop_succ fuel hend hspan hparts h hcut hfew, ← hpartAt]
    by_cases hlast : part.last = true
    · have hdone := hstep.done (Or.inl hlast)
      exact ⟨_, _, if_pos hlast, hnext, hdone, hwithin, hover hdone⟩
    · rw [if_neg hlast]
      by_cases hmore : issued + part.length < spanOf valid
      · obtain ⟨hcut', hblock⟩ := hstep.next (Bool.eq_false_iff.mpr hlast) hmore
        exact ih hnext hcut' (hblock ▸ hcount') (by omega)
      · -- The loop looks once more and is done.
        have hdone := hstep.done (Or.inr (not_lt.mp hmore))
        obtain ⟨n, rfl⟩ : ∃ n, fuel = n + 1 := ⟨fuel - 1, by omega⟩
        refine ⟨_, _, ?_, hnext, hdone, hwithin, hover hdone⟩
        rw [issueLoop, if_neg hmore]
        rfl

end Underway

/-! ### The whole read -/

/-- Blocks with a pin each are planned; what is served needs no more fetches than are allowed,
and each block still held has its pin. -/
theorem planServed_spec {idx : Index} {slots : List (Option ℕ)} {held blocks allowed : ℕ} (hheld : slots.countP Option.isSome = held)
    (hblocks : slots.length = blocks) (hlen : blocks < 2 ^ 32) (hpins : ∀ slot, (Index.occurs slots slot : ℤ) ≤ (idx.slots slot).pins) :
    ∃ fetches served slots' idx', idx.planServed slots held blocks allowed = some (fetches, served, slots', idx') ∧
      slots'.length = blocks ∧ (∀ slot, (Index.occurs slots' slot : ℤ) ≤ (idx'.slots slot).pins) ∧
      (served ≠ 0 → gaps false slots' ≤ allowed) := by
  unfold Index.planServed
  by_cases h0 : held = 0
  · exact ⟨0, 0, slots, idx, if_pos h0, hblocks, hpins, fun hne => absurd rfl hne⟩
  · rw [if_neg h0]
    by_cases hpart : allowed = 0 ∧ held ≠ blocks
    · exact ⟨_, 0, slots, idx, if_pos hpart, hblocks, hpins, fun hne => absurd rfl hne⟩
    · rw [if_neg hpart]
      have hruns : 1 ≤ allowed ∨ none ∉ slots := by
        rcases Nat.eq_zero_or_pos allowed with hzero | hpos
        · refine Or.inr fun hmem => ?_
          have hall : slots.countP Option.isSome = slots.length := by
            have := not_and.mp hpart hzero
            omega
          simpa using List.countP_eq_length.mp hall none hmem
        · exact Or.inl hpos
      have hfuel : slots.countP Option.isSome < slots.length + 1 := Nat.lt_succ_of_le List.countP_le_length
      obtain ⟨slots', hrounds, he⟩ := Index.planRounds_eq (hblocks ▸ hlen) hruns hfuel hpins
      refine ⟨0, _, slots', _, by rw [Index.planRead, ← hheld, he]; rfl, hrounds.givenUp.length_eq.symm.trans hblocks, fun slot => ?_,
        fun _ => hrounds.gaps_le⟩
      have := hpins slot
      have := occurs_changed hrounds.givenUp slot
      simp only [Index.lowered]
      omega

/-- What a read that was taken ordered and counted. -/
structure Planned (q : ReadRequest) (read : Reading) : Prop where
  blocks : read.slots.length = blocksOf q.offset q.valid
  tiles : ∃ stop, Tiles Order.start Order.length q.offset read.orders stop ∧ q.offset + q.valid ≤ stop ∧ stop ≤ q.offset + spanOf q.valid
  once : ∀ p, q.offset ≤ p → p < q.offset + q.valid → read.orders.countP (fun o => Covers Order.start Order.length p o) = 1
  inside : ∀ p, p < q.offset ∨ q.offset + spanOf q.valid ≤ p → read.orders.countP (fun o => Covers Order.start Order.length p o) = 0
  sound : ∀ o ∈ read.orders, o.Sound q.offset q.valid read.slots
  span : read.span = (read.orders.map Order.length).sum
  diskSpan : read.diskSpan = heldBytes q.offset read.slots q.valid
  fetchCount : read.fetchCount = gaps false read.slots ∧ read.fetchCount = read.orders.countP fun o => o.diskOffset.isNone
  allowed : read.fetchCount ≤ q.fetches ∧ read.fetchCount ≤ maxReadFetches
  refetch : read.refetch = 0

theorem Underway.planned {q : ReadRequest} {issued : ℕ} {read : Reading} (h : Underway q.offset q.valid read.slots issued read)
    (hblocks : read.slots.length = blocksOf q.offset q.valid) (hvalid : q.valid ≤ issued) (hspan : issued ≤ spanOf q.valid)
    (hcount : read.fetchCount = gaps false read.slots) (hgaps : gaps false read.slots ≤ q.fetches) (hfetches : q.fetches ≤ maxReadFetches) :
    Planned q read where
  blocks := hblocks
  tiles := ⟨q.offset + issued, h.tiles, by omega, by omega⟩
  once p hlo hhi := by rw [h.tiles.countP, if_pos ⟨hlo, by omega⟩]
  inside p hout := by rw [h.tiles.countP, if_neg (by omega)]
  sound := h.sound
  span := by
    have := h.tiles.sum
    have := h.span
    omega
  diskSpan := by rw [h.diskSpan, Nat.min_eq_right hvalid]
  fetchCount := ⟨hcount, h.fetchCount⟩
  allowed := ⟨hcount ▸ hgaps, hcount ▸ hgaps.trans hfetches⟩
  refetch := h.refetch

theorem readAdmitted_spec (ans : ReadAnswers) (q : ReadRequest) :
    ∃ admitted, readAdmitted ans q = some admitted ∧ (admitted = true → 0 < q.valid ∧ q.valid ≤ q.length ∧
      q.offset % pageSize = 0 ∧ q.length % pageSize = 0 ∧ blocksOf q.offset q.valid ≤ maxReadBlocks) := by
  unfold readAdmitted
  split
  · exact ⟨false, rfl, nofun⟩
  next hchecks =>
    simp only [not_or] at hchecks
    obtain ⟨-, -, hvalid, hlength, hsize⟩ := hchecks
    rw [minus_of_le (not_le.mp hsize).le]
    refine ⟨_, rfl, fun hadmitted => ?_⟩
    obtain ⟨-, hpage, hpageLength, -, hblocks, -⟩ := of_decide_eq_true hadmitted
    exact ⟨Nat.pos_of_ne_zero hvalid, not_lt.mp hlength, hpage, hpageLength, hblocks⟩

theorem declineRead_spec {idx : Index} {slots : List (Option ℕ)} (fetches : ℕ) (hpins : ∀ slot, (Index.occurs slots slot : ℤ) ≤ (idx.slots slot).pins) :
    ∃ idx', declineRead fetches slots idx = some (.declined fetches, idx') := by
  obtain ⟨idx', he, -⟩ := Index.unpin_spec idx false slots hpins
  exact ⟨idx', by rw [declineRead, he]; rfl⟩

/-- Whatever the index holds, `BlorgDiskCacheRead` ends without a borrow or a bad index, and a
read it takes, when each part starts, is ordered once and in order, each block from its own slot
or from the server, with a fetch for each run of missing blocks. -/
theorem read_planned {w : World} (hw : World.system.Reachable w) (ans : ReadAnswers) (q : ReadRequest)
    (hlength : q.length < 2 ^ 32) (hend : q.offset + q.length < 2 ^ 63) (hfetches : q.fetches ≤ maxReadFetches)
    (hparts : ∀ n, ans.parts n = ⟨true, true⟩) :
    ∃ outcome idx, diskCacheRead ans w.index q = some (outcome, idx) ∧ ∀ read, outcome = .taken read → Planned q read := by
  have hi := World.reachable_inv hw
  obtain ⟨admitted, hadmitted, hchecks⟩ := readAdmitted_spec ans q
  unfold diskCacheRead
  rw [hadmitted]
  cases admitted with
  | false => exact ⟨_, _, rfl, nofun⟩
  | true =>
    obtain ⟨hvalid, hvalidLength, hpage, hpageLength, hblocks⟩ := hchecks rfl
    have hspan : q.valid ≤ spanOf q.valid ∧ spanOf q.valid ≤ q.length := by
      unfold spanOf
      unfold pageSize at hpageLength ⊢
      omega
    have hcount : lastBlock q.offset q.valid + 1 - firstBlock q.offset = blocksOf q.offset q.valid := by
      have : firstBlock q.offset ≤ lastBlock q.offset q.valid := Nat.div_le_div_right (by omega)
      unfold blocksOf
      omega
    obtain ⟨slots, held, idx, hpin, hlen, -, hre⟩ := Index.pinHeld_spec hi.index { q.key with block := firstBlock q.offset } (lastBlock q.offset q.valid)
    have hpinned : ∀ slot, (Index.occurs slots slot : ℤ) ≤ (idx.slots slot).pins := fun slot => by
      rw [hre.pins slot, hi.pins slot]
      split <;> omega
    have hfew : blocksOf q.offset q.valid < 2 ^ 32 := by
      unfold maxReadBlocks at hblocks
      omega
    obtain ⟨fetches, served, slots', idx', hplan, hlen', hpins, hgaps⟩ :=
      @planServed_spec _ _ _ _ q.fetches (Index.pinBlocks_count hpin) (hlen.trans hcount) hfew hpinned
    show ∃ outcome idx, readBlocks ans w.index q = some (outcome, idx) ∧ _
    unfold readBlocks
    simp only [Option.bind_eq_bind, hpin, Option.bind_some, hplan]
    by_cases hserved : served = 0
    · obtain ⟨idx'', he⟩ := declineRead_spec fetches hpins
      exact ⟨.declined fetches, idx'', by rw [if_pos hserved, he], nofun⟩
    · rw [if_neg hserved]
      have hruns := hgaps hserved
      have hcut : Cut q.offset q.valid slots' 0 := Cut.init hlen' hpage hvalid
      have hfirst : blockAt q.offset 0 = 0 := Nat.sub_self _
      have hstart : Underway q.offset q.valid slots' 0 ⟨slots', 0, 0, 0, 0, []⟩ :=
        ⟨rfl, rfl, nofun, rfl, by simp [heldBytes], rfl, rfl⟩
      obtain ⟨issued, read, hloop, hdone, hvalidIssued, hissued, hfetchCount⟩ := issueLoop_spec
        (by unfold blockSize blockShift; omega) (by omega) hparts (hruns.trans hfetches) hstart hcut
        (by rw [hfirst]; exact Nat.zero_add _) (show slots'.length < blocksOf q.offset q.valid + 1 + blockAt q.offset 0 by omega)
      rw [hloop]
      refine ⟨_, _, rfl, fun read' htaken => ?_⟩
      cases htaken
      obtain rfl := hdone.same
      exact hdone.planned hlen' hvalidIssued hissued hfetchCount hruns hfetches

/-- A read of 65 pages, the last of them cut short by end of file. -/
def sixtyFivePages : ReadRequest := ⟨⟨1, 2, 70000 + 196608, 4, 0⟩, 65536, 266240, 201072, 1, some 0⟩

/-- The second and the third block of the file held, and no other. -/
def twoHeld (key : Key) : List Op :=
  let second := { key with block := key.block + 1 }
  let third := { key with block := key.block + 2 }
  [.reserve second, .reserve third, .reserve second, .reserve third, .commit 0 true, .commit 1 true]

/-- Nothing fails. -/
def allStart : ReadAnswers := ⟨true, true, true, fun _ => ⟨true, true⟩⟩

theorem read_planned_sixtyFivePages : ∃ w read idx, World.system.Reachable w ∧
    diskCacheRead allStart w.index sixtyFivePages = some (.taken read, idx) ∧ Planned sixtyFivePages read ∧
      read.orders = [⟨0, 65536, 131072, some 0⟩, ⟨131072, 196608, 70000, none⟩] := by
  have hrun : (run World.next World.twoSlots (twoHeld sixtyFivePages.key)).any (fun w =>
      (diskCacheRead allStart w.index sixtyFivePages).map Prod.fst = some (.taken ⟨[some 0, some 1, none, none], 201072, 131072, 1, 0,
        [⟨0, 65536, 131072, some 0⟩, ⟨131072, 196608, 70000, none⟩]⟩)) = true := by decide +kernel
  obtain ⟨w, hw, htaken⟩ := (Option.any_eq_true _ _).mp hrun
  have hreach := World.twoSlots_reachable.run (fun _ _ _ => World.step_of_next) hw
  obtain ⟨outcome, idx, he, hplanned⟩ := read_planned hreach allStart sixtyFivePages (by decide) (by decide) (by decide) fun _ => rfl
  rw [he] at htaken
  obtain rfl : outcome = _ := Option.some.inj (of_decide_eq_true htaken)
  exact ⟨w, _, idx, hreach, he, hplanned _ rfl, rfl⟩

end BlorgFS.DiskCache
