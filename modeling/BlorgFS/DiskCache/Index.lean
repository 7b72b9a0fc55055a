import BlorgFS.Lib.Chain
import Mathlib.Algebra.GroupWithZero.Nat
import Mathlib.Data.Int.Notation
import Mathlib.Data.Nat.Notation
import Mathlib.Tactic.Common

/-! The disk cache's index, `DiskCacheIndex.c`: which slot of the cache file
holds which block, which slot the clock gives up for the next one, and which
blocks of a partly held read are fetched rather than served. Every function is
one section under the index's spin lock, or a loop of such sections.

`none` as a link stands for `DISK_CACHE_NO_SLOT`. A chain walk is given one step
more than there are slots; a walk that is still going then, or an `NT_ASSERT`
that does not hold, makes the whole operation `none`. Sixty-four-bit arithmetic
that wraps is written `% 2 ^ 64`. -/

namespace BlorgFS.DiskCache

/-- `DISK_CACHE_KEY`: two hashes of the path, the version, and the block. -/
structure Key where
  file0 : ℕ
  file1 : ℕ
  size : ℕ
  modifiedTime : ℕ
  block : ℕ
  deriving DecidableEq, Repr

inductive SlotState where
  | free | filling | valid
  deriving DecidableEq, Repr

/-- `DISK_CACHE_SLOT`. -/
structure Slot where
  key : Key
  next : Option ℕ
  pins : ℤ
  state : SlotState
  referenced : Bool
  deriving Repr

/-- `DISK_CACHE_INDEX`. `ghosts` is the flat table, `ghostWays` tags a set. -/
structure Index where
  slots : ℕ → Slot
  heads : ℕ → Option ℕ
  ghosts : ℕ → ℕ
  slotCount : ℕ
  hashMask : ℕ
  hand : ℕ
  ghostMask : ℕ

/-- `DISK_CACHE_ADMIT`. -/
inductive Admit where
  | reserved | held | firstMiss | noVictim
  deriving DecidableEq, Repr

def blockShift : ℕ := 16
def blockSize : ℕ := 2 ^ blockShift
def maxMb : ℕ := 16384
def ghostWays : ℕ := 4
def clockReach : ℕ := 256
def golden : ℕ := 0x9E3779B97F4A7C15

/-- `DiskCacheIndexMix`. -/
def mix (key : Key) : ℕ :=
  let hash := key.file0
  let hash := (hash ^^^ key.file1) * golden % 2 ^ 64
  let hash := (hash ^^^ key.size) * golden % 2 ^ 64
  let hash := (hash ^^^ key.modifiedTime) * golden % 2 ^ 64
  let hash := (hash ^^^ key.block) * golden % 2 ^ 64
  hash ^^^ (hash >>> 29)

namespace Index

/-- Slots a cache of `maxMb` megabytes has: the most `indexInitialize` takes. -/
def maxSlots : ℕ := maxMb <<< (20 - blockShift)

def next (idx : Index) (slot : ℕ) : Option ℕ := (idx.slots slot).next

def modify (idx : Index) (slot : ℕ) (f : Slot → Slot) : Index :=
  { idx with slots := Function.update idx.slots slot (f (idx.slots slot)) }

/-- `DiskCacheIndexHead`, as the number of the chain rather than its address. -/
def chainOf (idx : Index) (mix : ℕ) : ℕ := ((mix >>> 32) % 2 ^ 32) &&& idx.hashMask

/-! ### Chain walks -/

/-- The walk of `DiskCacheIndexFind` from one link on. -/
def findFrom (idx : Index) (key : Key) : ℕ → Option ℕ → Option (Option ℕ)
  | 0, _ => none
  | _ + 1, none => some none
  | fuel + 1, some slot =>
    if (idx.slots slot).key = key then some (some slot) else findFrom idx key fuel (idx.next slot)

/-- `DiskCacheIndexFind`: the slot holding or filling `key`. -/
def find (idx : Index) (key : Key) (mix : ℕ) : Option (Option ℕ) :=
  idx.findFrom key (idx.slotCount + 1) (idx.heads (idx.chainOf mix))

/-- What `PULONG link` may point at in `DiskCacheIndexUnlink`. -/
inductive Link where
  | head (chain : ℕ)
  | next (slot : ℕ)
  deriving DecidableEq, Repr

def read (idx : Index) : Link → Option ℕ
  | .head chain => idx.heads chain
  | .next slot => idx.next slot

def write (idx : Index) (target : Option ℕ) : Link → Index
  | .head chain => { idx with heads := Function.update idx.heads chain target }
  | .next slot => idx.modify slot fun entry => { entry with next := target }

/-- The walk of `DiskCacheIndexUnlink`: the link that names `slot`. -/
def linkTo (idx : Index) (slot : ℕ) : ℕ → Link → Option Link
  | 0, _ => none
  | fuel + 1, link =>
    if idx.read link = some slot then some link
    else match idx.read link with
      | none => none
      | some other => linkTo idx slot fuel (.next other)

/-- `DiskCacheIndexUnlink`. -/
def unlink (idx : Index) (slot : ℕ) : Option Index := do
  let link ← idx.linkTo slot (idx.slotCount + 1) (.head (idx.chainOf (mix (idx.slots slot).key)))
  let idx := idx.write (idx.next slot) link
  return idx.modify slot fun entry => { entry with next := none }

/-! ### The clock -/

/-- The sweep of `DiskCacheIndexVictim` with `looked` slots left to look at. -/
def victimFrom : ℕ → Option ℕ → Index → Option ℕ × Index
  | 0, fallback, idx => (fallback, idx)
  | looked + 1, fallback, idx =>
    let slot := idx.hand
    let entry := idx.slots slot
    let idx := { idx with hand := if slot + 1 = idx.slotCount then 0 else slot + 1 }
    if entry.pins ≠ 0 then
      victimFrom looked fallback idx
    else if entry.state ≠ .free ∧ entry.referenced = true then
      victimFrom looked (if fallback = none then some slot else fallback)
        (idx.modify slot fun entry => { entry with referenced := false })
    else
      (some slot, idx)

/-- `DiskCacheIndexVictim`. -/
def victim (idx : Index) : Option ℕ × Index :=
  victimFrom (min idx.slotCount clockReach) none idx

/-! ### Initialize -/

/-- Doubles `heads` until it reaches `slotCount`. A `ULONG` doubles at most 32
times, so that many rounds are all there can be. -/
def headsFrom (slotCount : ℕ) : ℕ → ℕ → ℕ
  | 0, heads => heads
  | fuel + 1, heads => if heads < slotCount then headsFrom slotCount fuel (heads <<< 1) else heads

inductive InitStatus where
  | invalidParameter | insufficientResources
  deriving DecidableEq, Repr

def emptySlot : Slot where
  key := ⟨0, 0, 0, 0, 0⟩
  next := none
  pins := 0
  state := .free
  referenced := false

/-- `BlorgDiskCacheIndexInitialize`. `pool` says whether the three arrays could
be allocated. -/
def indexInitialize (pool : Bool) (slotCount : ℕ) : Except InitStatus Index :=
  if slotCount = 0 ∨ maxSlots < slotCount then .error .invalidParameter
  else if pool = false then .error .insufficientResources
  else
    let heads := headsFrom slotCount 32 1
    let ghostSets := if 1 < heads then heads / 2 else 1
    .ok { slots := fun _ => emptySlot
          heads := fun _ => none
          ghosts := fun _ => 0
          slotCount := slotCount
          hashMask := heads - 1
          hand := 0
          ghostMask := ghostSets - 1 }

/-! ### Pins -/

/-- The loop of `BlorgDiskCacheIndexPinHeld` over the next `n` blocks. -/
def pinBlocks (idx : Index) (key : Key) : ℕ → Option (List (Option ℕ) × ℕ × Index)
  | 0 => some ([], 0, idx)
  | n + 1 => do
    match ← idx.find key (mix key) with
    | some slot =>
      if (idx.slots slot).state = .valid then
        let idx := idx.modify slot fun entry => { entry with pins := entry.pins + 1 }
        let (slots, pinned, idx) ← pinBlocks idx { key with block := key.block + 1 } n
        return (some slot :: slots, pinned + 1, idx)
      else
        let (slots, pinned, idx) ← pinBlocks idx { key with block := key.block + 1 } n
        return (none :: slots, pinned, idx)
    | none =>
      let (slots, pinned, idx) ← pinBlocks idx { key with block := key.block + 1 } n
      return (none :: slots, pinned, idx)

/-- `BlorgDiskCacheIndexPinHeld`: the slots of the blocks from `key.block` to
`lastBlock`, and how many it pinned. -/
def pinHeld (idx : Index) (key : Key) (lastBlock : ℕ) : Option (List (Option ℕ) × ℕ × Index) :=
  idx.pinBlocks key (lastBlock + 1 - key.block)

/-- `BlorgDiskCacheIndexUnpin`. -/
def unpin (idx : Index) (served : Bool) : List (Option ℕ) → Option Index
  | [] => some idx
  | none :: slots => unpin idx served slots
  | some slot :: slots =>
    if 0 < (idx.slots slot).pins then
      unpin (idx.modify slot fun entry =>
        { entry with pins := entry.pins - 1, referenced := entry.referenced || served }) served slots
    else none

/-! ### Planning a partly held read -/

/-- The accumulators of the scan in `BlorgDiskCacheIndexPlanRead`. -/
structure Scan where
  runs : ℕ
  gapStart : ℕ
  gapLength : ℕ
  deriving Repr

/-- Where the held blocks that end just before `i` start. -/
def heldBefore (slots : List (Option ℕ)) : ℕ → ℕ
  | 0 => 0
  | start + 1 => if slots.getD start none ≠ none then heldBefore slots start else start + 1

/-- The scan's body at block `i`: a run of missing blocks starts there, or not. -/
def scanStep (slots : List (Option ℕ)) (scan : Scan) (i : ℕ) : Scan :=
  if slots.getD i none ≠ none ∨ (i ≠ 0 ∧ slots.getD (i - 1) none = none) then scan
  else
    let start := heldBefore slots i
    let scan := if scan.runs ≠ 0 ∧ i - start < scan.gapLength
      then { scan with gapStart := start, gapLength := i - start } else scan
    { scan with runs := scan.runs + 1 }

def scan (slots : List (Option ℕ)) : Scan :=
  (List.range slots.length).foldl (scanStep slots) ⟨0, 0, 2 ^ 32 - 1⟩

/-- `slots` with the blocks of one gap given up. -/
def giveUp (slots : List (Option ℕ)) (start length : ℕ) : List (Option ℕ) :=
  slots.take start ++ List.replicate length none ++ slots.drop (start + length)

/-- The rounds of `BlorgDiskCacheIndexPlanRead`. -/
def planRounds (maxRuns : ℕ) : ℕ → Index → List (Option ℕ) → ℤ →
    Option (ℤ × List (Option ℕ) × Index)
  | 0, _, _, _ => none
  | fuel + 1, idx, slots, held =>
    let plan := scan slots
    if plan.runs ≤ maxRuns then some (held, slots, idx)
    else do
      let idx ← idx.unpin false ((slots.drop plan.gapStart).take plan.gapLength)
      planRounds maxRuns fuel idx (giveUp slots plan.gapStart plan.gapLength) (held - plan.gapLength)

/-- `BlorgDiskCacheIndexPlanRead`: how many blocks are left to serve, and the
slots they are in. A round that unpins nothing new would not end the loop, so
one round more than there are blocks is enough. -/
def planRead (idx : Index) (slots : List (Option ℕ)) (held : ℤ) (maxRuns : ℕ) :
    Option (ℤ × List (Option ℕ) × Index) :=
  planRounds maxRuns (slots.length + 1) idx slots held

/-! ### Fills -/

/-- The first tag of `key`'s ghost set. -/
def ghostBase (idx : Index) (mix : ℕ) : ℕ := ((mix % 2 ^ 32) &&& idx.ghostMask) * ghostWays

/-- The way of the set at `base` that holds `tag`, or `ghostWays`. -/
def ghostWay (idx : Index) (base tag : ℕ) : ℕ :=
  ((List.range ghostWays).find? fun way => idx.ghosts (base + way) = tag).getD ghostWays

/-- The set at `base` with `tag` in front and its oldest tag gone. -/
def pushGhost (idx : Index) (base tag : ℕ) : Index :=
  { idx with ghosts := fun i =>
      if i = base then tag
      else if base < i ∧ i < base + ghostWays then idx.ghosts (i - 1) else idx.ghosts i }

/-- Gives the free slot `slot` to `key`, pinned and filling, first in its chain. -/
def link (idx : Index) (slot : ℕ) (key : Key) : Index :=
  let chain := idx.chainOf (mix key)
  let idx := idx.modify slot fun _ =>
    { key := key, next := idx.heads chain, pins := 1, state := .filling, referenced := false }
  { idx with heads := Function.update idx.heads chain (some slot) }

/-- Takes `slot` out of its chain, if it is in one. -/
def detach (idx : Index) (slot : ℕ) : Option Index :=
  if (idx.slots slot).state ≠ .free then idx.unlink slot else some idx

/-- `BlorgDiskCacheIndexReserve`. The slot is there exactly when it answers
`reserved`. -/
def reserve (idx : Index) (key : Key) : Option (Admit × Option ℕ × Index) := do
  let mix := mix key
  let base := idx.ghostBase mix
  let way := idx.ghostWay base (mix ||| 1)
  if (← idx.find key mix) ≠ none then
    return (.held, none, idx)
  else if way = ghostWays then
    return (.firstMiss, none, idx.pushGhost base (mix ||| 1))
  else
    match idx.victim with
    | (none, idx) => return (.noVictim, none, idx)
    | (some slot, idx) =>
      let idx ← idx.detach slot
      let idx := idx.link slot key
      return (.reserved, some slot, { idx with ghosts := Function.update idx.ghosts (base + way) 0 })

/-- A fill's slot takes its last state and loses the fill's pin. -/
def endFill (idx : Index) (slot : ℕ) (state : SlotState) : Index :=
  idx.modify slot fun entry => { entry with state := state, pins := entry.pins - 1 }

/-- `BlorgDiskCacheIndexCommit`. -/
def commit (idx : Index) (slot : ℕ) (written : Bool) : Option Index :=
  if (idx.slots slot).state = .filling ∧ 0 < (idx.slots slot).pins then
    if written then some (idx.endFill slot .valid)
    else (idx.unlink slot).map fun idx => idx.endFill slot .free
  else none

end Index

end BlorgFS.DiskCache
