import BlorgFS.DiskCache.Index
import BlorgFS.Lib.Word
import Mathlib.Algebra.BigOperators.Group.List.Basic
import Mathlib.Tactic.Ring

/-! `DiskCacheFill`: which blocks of a body are offered to the index, what is copied of them,
and what the call leaves charged to `FillBytes` and `Busy`. What other threads do comes in as
the answers the call gets; what it does is a list of events. -/

namespace BlorgFS.DiskCache

open Lib

/-! ### Data -/

/-- `DISK_CACHE_FILL`. -/
structure QueuedFill where
  slot : ℕ
  buffer : List UInt8
  deriving DecidableEq, Repr

/-- The statistics a fill counts in. -/
inductive FillStat where
  | firstMisses | dropped | fills | fillFailures
  deriving DecidableEq, Repr

/-- What a fill does that others see: an interlocked add to `FillBytes` or `Busy`, a block
offered to the index or given back, a count, a copy queued, the worker started, and a queued
copy given up. -/
inductive FillEvent where
  | charge (bytes : ℤ)
  | hold (n : ℤ)
  | offer (key : Key)
  | commit (slot : ℕ) (written : Bool)
  | count (stat : FillStat) (n : ℕ)
  | queue (block : ℕ) (fill : QueuedFill)
  | startWorker
  | abandon (fill : QueuedFill)
  deriving DecidableEq, Repr

/-- What a fill finds at a block: `FillBytes` with the block added, `Live` as `DiskCacheEnter`
reads it twice, the index's answer, the pool for the copy, whether the worker is queued, a work
item for it, and what is in the queue if there is none. -/
structure FillAnswer where
  backlog : ℤ
  live : Bool
  stillLive : Bool
  found : Admit
  slot : ℕ
  pool : Bool
  workerQueued : Bool
  workItem : Bool
  waiting : List QueuedFill

/-- How a fill ends: with nothing to do, with no block left, or giving up at a block. -/
inductive FillExit where
  | refused
  | finished
  | backlogFull (block : ℕ)
  | notLive (block : ℕ)
  | noMemory (block : ℕ)
  deriving DecidableEq, Repr

/-! ### The code -/

/-- `DISK_CACHE_FILL_BACKLOG`. -/
def diskCacheFillBacklog : ℤ := 32 * 1024 * 1024

/-- `DiskCacheUnchargeFill`. -/
def uncharge : FillEvent := .charge (-blockSize)

/-- `DiskCacheLeave`. -/
def leave : FillEvent := .hold (-1)

/-- `DiskCacheEnter`. -/
def FillAnswer.enter (ans : FillAnswer) : Bool × List FillEvent :=
  if ans.live = false then (false, [])
  else if ans.stillLive = false then (false, [.hold 1, leave])
  else (true, [.hold 1])

/-- `DiskCacheFillSettle`. -/
def diskCacheFillSettle (fill : QueuedFill) (written : Bool) : List FillEvent :=
  [.commit fill.slot written, .count (if written then .fills else .fillFailures) 1, uncharge, leave]

/-- `DiskCacheQueueFill`. -/
def diskCacheQueueFill (ans : FillAnswer) (block : ℕ) (fill : QueuedFill) : List FillEvent :=
  .queue block fill ::
    if ans.workerQueued then []
    else if ans.workItem then [.hold 1, .startWorker]
    else ans.waiting.flatMap fun fill => .abandon fill :: diskCacheFillSettle fill false

/-- `DiskCacheBlocksLeft`. -/
def blocksLeft (block stop size : ℕ) : Option ℕ :=
  (minus (stop / blockSize) block).map fun whole => if stop = size ∧ stop % blockSize ≠ 0 then whole + 1 else whole

/-- What a block that is not admitted counts as. -/
def countOf : Admit → List FillEvent
  | .firstMiss => [.count .firstMisses 1]
  | .noVictim => [.count .dropped 1]
  | _ => []

/-- The copy of `held` bytes that start `skip` into the body, with zeros behind them; there is
none if the body is shorter. -/
def copyBlock (source : ℕ → UInt8) (length skip held : ℕ) : Option (List UInt8) :=
  (minus blockSize held).bind fun rest =>
    if length < skip + held then none
    else some ((List.range held).map (fun j => source (skip + j)) ++ List.replicate rest 0)

/-- The loop of `DiskCacheFill`, from `block` on. -/
def fillLoop (key : Key) (source : ℕ → UInt8) (offset length : ℕ) (ans : ℕ → FillAnswer) : ℕ → ℕ → Option (FillExit × List FillEvent)
  | 0, _ => none
  | fuel + 1, block =>
    let start := ulong64 (block * blockSize)
    let stop := min (ulong64 (start + blockSize)) key.size
    let entered := (ans block).enter
    let onward (events : List FillEvent) :=
      (fillLoop key source offset length ans fuel (block + 1)).map fun (exit, rest) => (exit, events ++ rest)
    if stop ≤ start ∨ offset + length < stop then some (.finished, [])
    else if diskCacheFillBacklog < (ans block).backlog then
      (blocksLeft block (offset + length) key.size).map fun left =>
        (.backlogFull block, [.charge blockSize, uncharge, .count .dropped left])
    else if entered.1 = false then some (.notLive block, .charge blockSize :: entered.2 ++ [uncharge])
    else
      let offered := .charge blockSize :: entered.2 ++ [.offer { key with block := block }]
      if (ans block).found ≠ .reserved then onward (offered ++ countOf (ans block).found ++ [uncharge, leave])
      else if (ans block).pool = false then
        (blocksLeft block (offset + length) key.size).map fun left =>
          (.noMemory block, offered ++ [.commit (ans block).slot false, .count .dropped left, uncharge, leave])
      else do
        let buffer ← copyBlock source length (← minus start offset) (ulong (← minus stop start))
        onward (offered ++ diskCacheQueueFill (ans block) block ⟨(ans block).slot, buffer⟩)

/-- `DiskCacheFill`. The body is `none` if `Source` is NULL. -/
def diskCacheFill (key : Key) (source : Option (ℕ → UInt8)) (offset length : ℕ) (ans : ℕ → FillAnswer) : Option (FillExit × List FillEvent) :=
  match source with
  | none => some (.refused, [])
  | some source =>
    if length = 0 ∨ key.size < offset then some (.refused, [])
    else (minus key.size offset).bind fun rest =>
      if rest < length then some (.refused, [])
      else fillLoop key source offset length ans (length / blockSize + 3) (ulong64 (offset + blockSize - 1) / blockSize)

/-! ### What a body holds -/

/-- Block `c` of the file is whole within the body, or is the file's last and short and the
body has all of it. -/
def Wanted (size offset length c : ℕ) : Prop :=
  offset ≤ c * blockSize ∧ (c * blockSize + blockSize ≤ offset + length ∨
    offset + length = size ∧ c * blockSize < size ∧ size < c * blockSize + blockSize)

instance (size offset length : ℕ) : DecidablePred (Wanted size offset length) := fun _ =>
  inferInstanceAs (Decidable (_ ∧ _))

/-- How many blocks there are to offer from `c` on. -/
def wantedFrom (size offset length c : ℕ) : ℕ :=
  (List.range (size / blockSize + 1)).countP fun b => Wanted size offset length b ∧ c ≤ b

/-- Where the blocks a body holds end. -/
def blockLimit (size stop : ℕ) : ℕ := stop / blockSize + if stop = size ∧ stop % blockSize ≠ 0 then 1 else 0

section

variable {size offset length c : ℕ}

theorem wanted_iff (hle : offset + length ≤ size) :
    Wanted size offset length c ↔ offset ≤ c * blockSize ∧ c < blockLimit size (offset + length) := by
  unfold Wanted blockLimit blockSize blockShift
  constructor
  · rintro ⟨hstart, hend⟩
    refine ⟨hstart, ?_⟩
    split <;> omega
  · rintro ⟨hstart, hend⟩
    refine ⟨hstart, ?_⟩
    split at hend <;> omega

theorem countP_between (n a b : ℕ) (hb : b ≤ n) : (List.range n).countP (fun c => a ≤ c ∧ c < b) = b - a := by
  have hmin : ∀ m, (List.range m).countP (fun c => a ≤ c ∧ c < b) = min m b - a := by
    intro m
    induction m with
    | zero => simp
    | succ m ih =>
      rw [List.range_succ, List.countP_append, ih, List.countP_singleton]
      simp only [decide_eq_true_eq]
      split <;> omega
  rw [hmin, Nat.min_eq_right hb]

/-- `DiskCacheBlocksLeft` counts the blocks to offer from a block of the body on. -/
theorem blocksLeft_eq (hle : offset + length ≤ size) (hwanted : Wanted size offset length c) :
    blocksLeft c (offset + length) size = some (wantedFrom size offset length c) := by
  obtain ⟨hstart, hlt⟩ := (wanted_iff hle).mp hwanted
  have hlimit : blockLimit size (offset + length) ≤ size / blockSize + 1 := by
    unfold blockLimit blockSize blockShift
    split <;> omega
  have hcount : wantedFrom size offset length c = blockLimit size (offset + length) - c := by
    rw [← countP_between _ _ _ hlimit]
    refine List.countP_congr fun b _ => ?_
    simp only [decide_eq_true_eq, wanted_iff hle]
    have : c ≤ b → offset ≤ b * blockSize := fun hcb => hstart.trans (Nat.mul_le_mul_right _ hcb)
    omega
  rw [hcount]
  unfold blocksLeft
  unfold blockLimit at hlt ⊢
  rw [minus_of_le (by split at hlt <;> omega), Option.map_some]
  congr 1
  split <;> split at hlt <;> omega

end

/-! ### What a fill leaves behind -/

namespace FillEvent

def charged : FillEvent → ℤ
  | .charge bytes => bytes
  | _ => 0

def held : FillEvent → ℤ
  | .hold n => n
  | _ => 0

def queued : FillEvent → ℤ
  | .queue _ _ => 1
  | _ => 0

def abandoned : FillEvent → ℤ
  | .abandon _ => 1
  | _ => 0

def workers : FillEvent → ℤ
  | .startWorker => 1
  | _ => 0

def offered : FillEvent → Option ℕ
  | .offer key => some key.block
  | _ => none

end FillEvent

/-- The blocks offered to the index, in the order they were. -/
def offers (events : List FillEvent) : List ℕ := events.filterMap FillEvent.offered

/-- What all of the events add up to. -/
def sumOf (f : FillEvent → ℤ) (events : List FillEvent) : ℤ := (events.map f).sum

@[simp] theorem sumOf_nil (f : FillEvent → ℤ) : sumOf f [] = 0 := rfl

@[simp] theorem sumOf_cons (f : FillEvent → ℤ) (e : FillEvent) (events : List FillEvent) : sumOf f (e :: events) = f e + sumOf f events :=
  List.sum_cons

@[simp] theorem sumOf_append (f : FillEvent → ℤ) (l m : List FillEvent) : sumOf f (l ++ m) = sumOf f l + sumOf f m := by
  unfold sumOf
  rw [List.map_append, List.sum_append]

@[simp] theorem offers_append (l m : List FillEvent) : offers (l ++ m) = offers l ++ offers m := List.filterMap_append

/-- `FillBytes` is left with one block more for each copy queued, `Busy` with one hold, and one
for the worker; each copy given up, whoever queued it, has its block and its hold given back. -/
structure Balanced (events : List FillEvent) : Prop where
  bytes : sumOf FillEvent.charged events = blockSize * (sumOf FillEvent.queued events - sumOf FillEvent.abandoned events)
  holds : sumOf FillEvent.held events = sumOf FillEvent.queued events - sumOf FillEvent.abandoned events + sumOf FillEvent.workers events

theorem Balanced.append {l m : List FillEvent} (hl : Balanced l) (hm : Balanced m) : Balanced (l ++ m) := by
  constructor
  · simp only [sumOf_append, hl.bytes, hm.bytes]
    ring
  · simp only [sumOf_append, hl.holds, hm.holds]
    ring

theorem balanced_waiting (waiting : List QueuedFill) : Balanced (waiting.flatMap fun fill => .abandon fill :: diskCacheFillSettle fill false) := by
  induction waiting with
  | nil => exact ⟨rfl, rfl⟩
  | cons fill waiting ih =>
    rw [List.flatMap_cons]
    refine Balanced.append ⟨?_, ?_⟩ ih <;>
      simp [diskCacheFillSettle, uncharge, leave, FillEvent.charged, FillEvent.held, FillEvent.queued, FillEvent.abandoned, FillEvent.workers]

theorem offers_waiting (waiting : List QueuedFill) : offers (waiting.flatMap fun fill => .abandon fill :: diskCacheFillSettle fill false) = [] := by
  induction waiting with
  | nil => rfl
  | cons fill waiting ih =>
    rw [List.flatMap_cons, offers_append, ih]
    rfl

/-- The events of one block offered: charged, held and offered, and then `rest`. -/
def offeredThen (key : Key) (block : ℕ) (rest : List FillEvent) : List FillEvent :=
  [.charge blockSize, .hold 1, .offer { key with block := block }] ++ rest

theorem balanced_queueFill (key : Key) (ans : FillAnswer) (block : ℕ) (fill : QueuedFill) :
    Balanced (offeredThen key block (diskCacheQueueFill ans block fill)) := by
  have hqueue : Balanced [.charge blockSize, .hold 1, .offer { key with block := block }, .queue block fill] := by
    constructor <;> simp [FillEvent.charged, FillEvent.held, FillEvent.queued, FillEvent.abandoned, FillEvent.workers]
  have hafter : ∀ after, Balanced after → Balanced (offeredThen key block (.queue block fill :: after)) := fun after h => hqueue.append h
  unfold diskCacheQueueFill
  split
  · exact hafter [] ⟨rfl, rfl⟩
  split
  · exact hafter _ ⟨rfl, rfl⟩
  · exact hafter _ (balanced_waiting ans.waiting)

theorem balanced_declined (key : Key) (block : ℕ) (found : Admit) : Balanced (offeredThen key block (countOf found ++ [uncharge, leave])) := by
  cases found <;> constructor <;>
    simp [offeredThen, countOf, uncharge, leave, FillEvent.charged, FillEvent.held, FillEvent.queued, FillEvent.abandoned, FillEvent.workers]

/-! ### The whole fill -/

/-- The block a fill gave up at. -/
def FillExit.gaveUpAt : FillExit → Option ℕ
  | .backlogFull block | .notLive block | .noMemory block => some block
  | _ => none

/-- A fill that ended so got as far as offering block `c`. -/
def FillExit.Reached (c : ℕ) : FillExit → Prop
  | .refused => False
  | .finished => True
  | .backlogFull block | .notLive block => c < block
  | .noMemory block => c ≤ block

/-- Block `c` of a file, with zeros to the block size. -/
def fileBlock (content : ℕ → UInt8) (size c : ℕ) : List UInt8 :=
  let held := min blockSize (size - c * blockSize)
  (List.range held).map (fun j => content (c * blockSize + j)) ++ List.replicate (blockSize - held) 0

/-- What a fill from block `b` on does. -/
structure Filled (key : Key) (source : ℕ → UInt8) (offset length b : ℕ) (exit : FillExit) (events : List FillEvent) : Prop where
  increasing : (offers events).Pairwise (· < ·)
  offered : ∀ c, c ∈ offers events ↔ Wanted key.size offset length c ∧ b ≤ c ∧ exit.Reached c
  keys : ∀ k, .offer k ∈ events → k = { key with block := k.block }
  copies : ∀ c fill, .queue c fill ∈ events → c ∈ offers events ∧
    ∀ content : ℕ → UInt8, (∀ j < length, source j = content (offset + j)) → fill.buffer = fileBlock content key.size c
  balanced : Balanced events
  left : ∀ c, exit.gaveUpAt = some c → b ≤ c ∧ Wanted key.size offset length c ∧
    blocksLeft c (offset + length) key.size = some (wantedFrom key.size offset length c)

section

variable {key : Key} {source : ℕ → UInt8} {offset length b : ℕ} {exit : FillExit} {events after : List FillEvent}

theorem Filled.reached (h : Filled key source offset length (b + 1) exit events) (hne : exit ≠ .refused) : exit.Reached b := by
  cases exit with
  | refused => exact absurd rfl hne
  | finished => trivial
  | backlogFull block => exact (h.left block rfl).1
  | notLive block => exact (h.left block rfl).1
  | noMemory block => exact Nat.le_of_succ_le (h.left block rfl).1

/-- The loop goes on after a block it offered. -/
theorem Filled.cons (h : Filled key source offset length (b + 1) exit events) (hne : exit ≠ .refused)
    (hwanted : Wanted key.size offset length b) (hoffers : offers after = []) (hkeys : ∀ k, .offer k ∉ after)
    (hbalanced : Balanced (offeredThen key b after))
    (hcopies : ∀ c fill, .queue c fill ∈ after → c = b ∧
      ∀ content : ℕ → UInt8, (∀ j < length, source j = content (offset + j)) → fill.buffer = fileBlock content key.size b) :
    Filled key source offset length b exit (offeredThen key b after ++ events) := by
  have hall : offers (offeredThen key b after ++ events) = b :: offers events := by
    rw [offers_append, offeredThen, offers_append, hoffers]
    rfl
  refine ⟨?_, fun c => ?_, fun k hk => ?_, fun c fill hq => ?_, hbalanced.append h.balanced, fun c hc => ?_⟩
  · rw [hall]
    exact List.pairwise_cons.mpr ⟨fun c hc => ((h.offered c).mp hc).2.1, h.increasing⟩
  · rw [hall, List.mem_cons, h.offered]
    constructor
    · rintro (rfl | ⟨hw, hle, hreach⟩)
      · exact ⟨hwanted, le_rfl, h.reached hne⟩
      · exact ⟨hw, Nat.le_of_succ_le hle, hreach⟩
    · rintro ⟨hw, hle, hreach⟩
      exact hle.eq_or_lt.imp Eq.symm fun hlt => ⟨hw, hlt, hreach⟩
  · rcases List.mem_append.mp hk with hk | hk
    · rcases List.mem_append.mp hk with hk | hk
      · simp only [List.mem_cons, reduceCtorEq, FillEvent.offer.injEq, List.not_mem_nil, or_false, false_or] at hk
        rw [hk]
      · exact absurd hk (hkeys k)
    · exact h.keys k hk
  · rw [hall]
    rcases List.mem_append.mp hq with hq | hq
    · rcases List.mem_append.mp hq with hq | hq
      · simp at hq
      · obtain ⟨rfl, hcopy⟩ := hcopies c fill hq
        exact ⟨List.mem_cons_self, hcopy⟩
    · exact ⟨List.mem_cons_of_mem _ (h.copies c fill hq).1, (h.copies c fill hq).2⟩
  · exact ⟨Nat.le_of_succ_le (h.left c hc).1, (h.left c hc).2⟩

/-- The loop ends where no block is left. -/
theorem Filled.finished (hnone : ∀ c, b ≤ c → ¬ Wanted key.size offset length c) : Filled key source offset length b .finished [] :=
  ⟨List.Pairwise.nil, fun c => ⟨nofun, fun ⟨hw, hle, _⟩ => absurd hw (hnone c hle)⟩, nofun, nofun, ⟨rfl, rfl⟩, nofun⟩

/-- The loop gives up before it offers block `b`. -/
theorem Filled.givesUp (hle : offset + length ≤ key.size) (hwanted : Wanted key.size offset length b) (hat : exit.gaveUpAt = some b)
    (hreach : ∀ c, exit.Reached c ↔ c < b) (hoffers : offers events = []) (hkeys : ∀ k, .offer k ∉ events)
    (hqueue : ∀ c fill, .queue c fill ∉ events) (hbalanced : Balanced events) : Filled key source offset length b exit events where
  increasing := hoffers ▸ List.Pairwise.nil
  offered c := by
    rw [hoffers, hreach]
    exact ⟨nofun, fun ⟨_, hbc, hcb⟩ => absurd hbc (not_le.mpr hcb)⟩
  keys k hk := absurd hk (hkeys k)
  copies c fill hq := absurd hq (hqueue c fill)
  balanced := hbalanced
  left c hc := by
    obtain rfl : b = c := Option.some.inj (hat.symm.trans hc)
    exact ⟨le_rfl, hwanted, blocksLeft_eq hle hwanted⟩

/-- The loop gives up after the index has reserved a slot for block `b`. -/
theorem Filled.noMemory (hle : offset + length ≤ key.size) (hwanted : Wanted key.size offset length b) (slot left : ℕ) :
    Filled key source offset length b (.noMemory b) (offeredThen key b [.commit slot false, .count .dropped left, uncharge, leave]) where
  increasing := List.pairwise_singleton _ _
  offered c := by
    show c ∈ [b] ↔ Wanted key.size offset length c ∧ b ≤ c ∧ c ≤ b
    rw [List.mem_singleton]
    constructor
    · rintro rfl
      exact ⟨hwanted, le_rfl, le_rfl⟩
    · rintro ⟨-, hbc, hcb⟩
      exact le_antisymm hcb hbc
  keys k hk := by
    simp [offeredThen, uncharge, leave] at hk
    rw [hk]
  copies c fill hq := by simp [offeredThen, uncharge, leave] at hq
  balanced := by
    constructor <;>
      simp [offeredThen, uncharge, leave, FillEvent.charged, FillEvent.held, FillEvent.queued, FillEvent.abandoned, FillEvent.workers]
  left c hc := by
    obtain rfl : b = c := Option.some.inj hc
    exact ⟨le_rfl, hwanted, blocksLeft_eq hle hwanted⟩

/-- What `DiskCacheQueueFill` does besides the queueing offers nothing and queues nothing. -/
theorem diskCacheQueueFill_cases (ans : FillAnswer) (block : ℕ) (fill : QueuedFill) :
    ∃ after, diskCacheQueueFill ans block fill = .queue block fill :: after ∧ offers after = [] ∧ (∀ k, .offer k ∉ after) ∧
      ∀ c other, .queue c other ∉ after := by
  unfold diskCacheQueueFill
  refine ⟨_, rfl, ?_⟩
  split
  · exact ⟨rfl, nofun, nofun⟩
  split
  · exact ⟨rfl, by simp, by simp⟩
  · exact ⟨offers_waiting _, by simp [diskCacheFillSettle, uncharge, leave], by simp [diskCacheFillSettle, uncharge, leave]⟩

/-- The copy made of a block. -/
theorem copyBlock_eq (source : ℕ → UInt8) (hle : offset + length ≤ key.size) (hwanted : Wanted key.size offset length b) :
    ∃ buffer, copyBlock source length (b * blockSize - offset) (min (b * blockSize + blockSize) key.size - b * blockSize) = some buffer ∧
      ∀ content : ℕ → UInt8, (∀ j < length, source j = content (offset + j)) → buffer = fileBlock content key.size b := by
  obtain ⟨hstart, hend⟩ := hwanted
  have hheld : min (b * blockSize + blockSize) key.size - b * blockSize = min blockSize (key.size - b * blockSize) := by omega
  rw [hheld, copyBlock, minus_of_le (Nat.min_le_left _ _), Option.bind_some, if_neg (by omega)]
  refine ⟨_, rfl, fun content hsource => ?_⟩
  unfold fileBlock
  congr 1
  refine List.map_congr_left fun j hj => ?_
  have hj := List.mem_range.mp hj
  rw [hsource _ (by omega)]
  congr 1
  omega

theorem FillAnswer.enter_cases (ans : FillAnswer) :
    ans.enter = (true, [.hold 1]) ∨ ans.enter.1 = false ∧ (ans.enter.2 = [] ∨ ans.enter.2 = [.hold 1, leave]) := by
  unfold FillAnswer.enter
  split
  · exact Or.inr ⟨rfl, Or.inl rfl⟩
  split
  · exact Or.inr ⟨rfl, Or.inr rfl⟩
  · exact Or.inl rfl

/-- The loop of `DiskCacheFill` from a block on, whatever it meets. -/
theorem fillLoop_filled (source : ℕ → UInt8) (ans : ℕ → FillAnswer) {fuel : ℕ} (hsize : key.size < 2 ^ 63) (hle : offset + length ≤ key.size)
    (hfirst : offset ≤ b * blockSize) (hb : b * blockSize ≤ 2 ^ 63 + blockSize) (hfuel : blockLimit key.size (offset + length) - b < fuel) :
    ∃ exit events, fillLoop key source offset length ans fuel b = some (exit, events) ∧ exit ≠ .refused ∧
      Filled key source offset length b exit events := by
  induction fuel generalizing b with
  | zero => omega
  | succ fuel ih =>
    have hblock : blockSize = 65536 := rfl
    simp only [fillLoop, ulong64_of_lt (show b * blockSize < 2 ^ 64 by omega), ulong64_of_lt (show b * blockSize + blockSize < 2 ^ 64 by omega)]
    by_cases hwanted : Wanted key.size offset length b
    · obtain ⟨-, hlimit⟩ := (wanted_iff hle).mp hwanted
      have hin : ¬ (min (b * blockSize + blockSize) key.size ≤ b * blockSize ∨ offset + length < min (b * blockSize + blockSize) key.size) := by
        obtain ⟨-, hend⟩ := hwanted
        omega
      have hleft := blocksLeft_eq hle hwanted
      have hnext : ∃ exit events, fillLoop key source offset length ans fuel (b + 1) = some (exit, events) ∧ exit ≠ .refused ∧
          Filled key source offset length (b + 1) exit events := by
        refine ih ?_ ?_ (by omega)
        · rw [Nat.add_mul]
          omega
        · rw [Nat.add_mul]
          obtain ⟨-, hend⟩ := hwanted
          omega
      rw [if_neg hin]
      split
      -- The backlog is full.
      · rw [hleft, Option.map_some]
        refine ⟨_, _, rfl, nofun, Filled.givesUp hle hwanted rfl (fun _ => Iff.rfl) rfl (by simp [uncharge]) (by simp [uncharge]) ⟨?_, ?_⟩⟩ <;>
          simp [uncharge, FillEvent.charged, FillEvent.held, FillEvent.queued, FillEvent.abandoned, FillEvent.workers]
      rcases (ans b).enter_cases with henter | ⟨hrefused, hholds⟩
      swap
      -- The cache is not live.
      · rw [if_pos hrefused]
        refine ⟨_, _, rfl, nofun, ?_⟩
        rcases hholds with hholds | hholds <;> rw [hholds] <;>
          refine Filled.givesUp hle hwanted rfl (fun _ => Iff.rfl) rfl (by simp [uncharge, leave]) (by simp [uncharge, leave]) ⟨?_, ?_⟩ <;>
          simp [uncharge, leave, FillEvent.charged, FillEvent.held, FillEvent.queued, FillEvent.abandoned, FillEvent.workers]
      rw [henter, if_neg (by simp)]
      split
      -- The index does not want it.
      · obtain ⟨exit, events, he, hne, hfilled⟩ := hnext
        refine ⟨exit, _, by rw [he]; rfl, hne, ?_⟩
        have hcons := hfilled.cons hne hwanted ?_ ?_ (balanced_declined key b (ans b).found) ?_
        · simpa [offeredThen] using hcons
        all_goals cases (ans b).found <;> simp [countOf, uncharge, leave, offers, FillEvent.offered]
      split
      -- There is no memory for the copy.
      · rw [hleft, Option.map_some]
        exact ⟨_, _, rfl, nofun, Filled.noMemory hle hwanted _ _⟩
      · obtain ⟨exit, events, he, hne, hfilled⟩ := hnext
        obtain ⟨buffer, hcopy, hbytes⟩ := copyBlock_eq source hle hwanted
        have hheld : ulong (min (b * blockSize + blockSize) key.size - b * blockSize) = min (b * blockSize + blockSize) key.size - b * blockSize :=
          ulong_of_lt (by omega)
        rw [minus_of_le hfirst, minus_of_le (not_le.mp fun h => hin (Or.inl h)).le, Option.bind_eq_bind, Option.bind_some, Option.bind_eq_bind,
          Option.bind_some, hheld, hcopy, Option.bind_some]
        refine ⟨exit, _, by rw [he]; rfl, hne, ?_⟩
        have hbalanced := balanced_queueFill key (ans b) b ⟨(ans b).slot, buffer⟩
        obtain ⟨after, hafter, hoffers, hkeys, hqueue⟩ := diskCacheQueueFill_cases (ans b) b ⟨(ans b).slot, buffer⟩
        rw [hafter] at hbalanced ⊢
        have hnone : offers (.queue b ⟨(ans b).slot, buffer⟩ :: after) = [] := hoffers
        have hcons := hfilled.cons hne hwanted hnone (fun k hk => (List.mem_cons.mp hk).elim nofun (hkeys k)) hbalanced fun c fill hq => by
          rcases List.mem_cons.mp hq with hq | hq
          · cases hq
            exact ⟨rfl, hbytes⟩
          · exact absurd hq (hqueue c fill)
        simpa [offeredThen] using hcons
    · have hout : min (b * blockSize + blockSize) key.size ≤ b * blockSize ∨ offset + length < min (b * blockSize + blockSize) key.size := by
        unfold Wanted at hwanted
        omega
      refine ⟨_, _, if_pos hout, nofun, Filled.finished fun c hbc hc => hwanted ?_⟩
      rw [wanted_iff hle] at hc ⊢
      exact ⟨hfirst, hbc.trans_lt hc.2⟩

end

/-- `DiskCacheFill` ends without a borrow and reads the body only where it is. It offers the
blocks the body holds in order, until it gives up; what it queues is the block's bytes; where
it gives up it counts the blocks left; and its charges are those of the copies it leaves. -/
theorem fill_exact (key : Key) (source : Option (ℕ → UInt8)) (offset length : ℕ) (ans : ℕ → FillAnswer)
    (hsize : key.size < 2 ^ 63) (hle : offset + length ≤ key.size) :
    ∃ exit events, diskCacheFill key source offset length ans = some (exit, events) ∧
      (exit = .refused ↔ source = none ∨ length = 0) ∧
      (offers events).Pairwise (· < ·) ∧
      (∀ c, c ∈ offers events ↔ Wanted key.size offset length c ∧ exit.Reached c) ∧
      (∀ k, .offer k ∈ events → k = { key with block := k.block }) ∧
      (∀ c fill, .queue c fill ∈ events → c ∈ offers events ∧
        ∀ content : ℕ → UInt8, (∀ body, source = some body → ∀ j < length, body j = content (offset + j)) →
          fill.buffer = fileBlock content key.size c) ∧
      Balanced events ∧
      ∀ c, exit.gaveUpAt = some c → Wanted key.size offset length c ∧
        blocksLeft c (offset + length) key.size = some (wantedFrom key.size offset length c) := by
  have hrefused : ∃ exit events, some (FillExit.refused, ([] : List FillEvent)) = some (exit, events) ∧ exit = .refused ∧
      (offers events).Pairwise (· < ·) ∧ (∀ c, c ∈ offers events ↔ Wanted key.size offset length c ∧ exit.Reached c) ∧
      events = [] ∧ Balanced events ∧ exit.gaveUpAt = none :=
    ⟨_, _, rfl, rfl, List.Pairwise.nil, fun c => ⟨nofun, fun h => h.2.elim⟩, rfl, ⟨rfl, rfl⟩, rfl⟩
  unfold diskCacheFill
  cases source with
  | none =>
    obtain ⟨exit, events, he, hexit, hincreasing, hoffered, rfl, hbalanced, hat⟩ := hrefused
    exact ⟨exit, [], he, ⟨fun _ => Or.inl rfl, fun _ => hexit⟩, hincreasing, hoffered, nofun, nofun, hbalanced, fun c hc => by simp [hat] at hc⟩
  | some body =>
    by_cases hlength : length = 0
    · obtain ⟨exit, events, he, hexit, hincreasing, hoffered, rfl, hbalanced, hat⟩ := hrefused
      exact ⟨exit, [], (if_pos (Or.inl hlength)).trans he, ⟨fun _ => Or.inr hlength, fun _ => hexit⟩, hincreasing, hoffered, nofun, nofun, hbalanced,
        fun c hc => by simp [hat] at hc⟩
    · have hblock : blockSize = 65536 := rfl
      have hstart : ulong64 (offset + blockSize - 1) = offset + blockSize - 1 := ulong64_of_lt (by omega)
      have hfirst : offset ≤ (offset + blockSize - 1) / blockSize * blockSize ∧
          (offset + blockSize - 1) / blockSize * blockSize ≤ 2 ^ 63 + blockSize := by
        unfold blockSize blockShift
        omega
      have hlimit : blockLimit key.size (offset + length) - (offset + blockSize - 1) / blockSize < length / blockSize + 3 := by
        unfold blockLimit blockSize blockShift
        split <;> omega
      obtain ⟨exit, events, he, hne, h⟩ := fillLoop_filled body ans hsize hle hfirst.1 hfirst.2 hlimit
      refine ⟨exit, events, ?_, ⟨fun heq => absurd heq hne, fun hor => absurd (hor.resolve_left nofun) hlength⟩, h.increasing, fun c => ?_, h.keys,
        fun c fill hq => ?_, h.balanced, fun c hc => (h.left c hc).2⟩
      · simp only
        rw [if_neg (by omega), minus_of_le (by omega), Option.bind_some, if_neg (by omega), hstart]
        exact he
      · rw [h.offered]
        refine ⟨fun ⟨hw, _, hreach⟩ => ⟨hw, hreach⟩, fun ⟨hw, hreach⟩ => ⟨hw, ?_, hreach⟩⟩
        have hin := hw.1
        unfold blockSize blockShift at hin ⊢
        omega
      · obtain ⟨hmem, hcopy⟩ := h.copies c fill hq
        exact ⟨hmem, fun content hsource => hcopy content (hsource body rfl)⟩

/-- A file of three bytes, all of them fetched, which the index admits; the worker is idle. -/
def threeBytes : ℕ → FillAnswer := fun _ => ⟨blockSize, true, true, .reserved, 0, true, false, true, []⟩

theorem fill_exact_threeBytes : ∃ exit events, diskCacheFill ⟨1, 2, 3, 4, 0⟩ (some fun _ => 7) 0 3 threeBytes = some (exit, events) ∧
    0 ∈ offers events ∧ Balanced events ∧ ∀ fill, .queue 0 fill ∈ events → fill.buffer = fileBlock (fun _ => 7) 3 0 := by
  obtain ⟨exit, events, he, -, hincreasing, hoffered, -, hcopies, hbalanced, -⟩ :=
    fill_exact ⟨1, 2, 3, 4, 0⟩ (some fun _ => 7) 0 3 threeBytes (by decide) (by decide)
  have hexit : (diskCacheFill ⟨1, 2, 3, 4, 0⟩ (some fun _ => 7) 0 3 threeBytes).map Prod.fst = some .finished := by decide +kernel
  rw [he] at hexit
  obtain rfl : exit = .finished := Option.some.inj hexit
  refine ⟨_, events, he, (hoffered 0).mpr ⟨by decide, trivial⟩, hbalanced, fun fill hq => (hcopies 0 fill hq).2 _ fun body hbody j _ => ?_⟩
  cases hbody
  rfl

/-- The worker that a fill starts has a hold of its own. -/
theorem worker_held : ¬ ∀ (key : Key) (source : Option (ℕ → UInt8)) (offset length : ℕ) (ans : ℕ → FillAnswer) (exit : FillExit) (events : List FillEvent),
    key.size < 2 ^ 63 → offset + length ≤ key.size → diskCacheFill key source offset length ans = some (exit, events) →
      sumOf FillEvent.held events = sumOf FillEvent.queued events - sumOf FillEvent.abandoned events := by
  intro h
  have hrun : (diskCacheFill ⟨1, 2, 3, 4, 0⟩ (some fun _ => 7) 0 3 threeBytes).any
      (fun r => sumOf FillEvent.held r.2 = 2 ∧ sumOf FillEvent.queued r.2 = 1 ∧ sumOf FillEvent.abandoned r.2 = 0) = true := by decide +kernel
  obtain ⟨⟨exit, events⟩, he, hsums⟩ := (Option.any_eq_true _ _).mp hrun
  obtain ⟨hheld, hqueued, habandoned⟩ := of_decide_eq_true hsums
  have := h _ _ _ _ _ exit events (by decide) (by decide) he
  simp only at hheld hqueued habandoned
  omega

end BlorgFS.DiskCache
