import BlorgFS.Lib.Transition
import BlorgFS.Lib.Word
import Mathlib.Data.Fintype.Pi
import Mathlib.Data.List.Infix

/-! The slow fetches on record: a ring a processor that `BlorgStatisticsRecordSlowFetch` stores
into word by word, `Sequence` last, and the copies `BlorgStatisticsQuery` takes of the slots
from another processor, kept where `Sequence` reads the same before and after and sorted by the
time of completion. -/

namespace BlorgFS.Statistics.SlowFetches

open Lib

def perCpu : ℕ := 4

/-- `BLORGFS_SLOW_FETCH_SAMPLES`. -/
def samples : ℕ := 16

def thresholdUs : ℕ := 250000

/-- The words of a `BLORGFS_SLOW_FETCH`. -/
inductive Word
  | sequence
  | completedQpc
  | totalUs
  | acquireUs
  | sendUs
  | waitUs
  | ttfbUs
  | bodyUs
  | bytes
  | fetchesActive
  | connectionReused
  deriving DecidableEq

/-- The words in the order they are stored. -/
def stores : List Word :=
  [.completedQpc, .totalUs, .acquireUs, .sendUs, .waitUs, .ttfbUs, .bodyUs, .bytes, .fetchesActive, .connectionReused, .sequence]

theorem mem_stores (w : Word) : w ∈ stores := by cases w <;> decide

instance : Fintype Word := ⟨⟨stores, by decide⟩, mem_stores⟩

/-- A `BLORGFS_SLOW_FETCH`. -/
abbrev Record := Word → ℕ

/-! ### A record is stored -/

/-- The arguments of `BlorgStatisticsRecordSlowFetch`. -/
structure Call where
  totalQpc : ℤ
  acquireQpc : ℤ
  sendQpc : ℤ
  waitQpc : ℤ
  ttfbQpc : ℤ
  bodyQpc : ℤ
  bytes : ℕ
  connectionReused : Bool

/-- `StatisticsQpcToMicroseconds`. -/
def qpcToMicroseconds (frequency : ℕ) (elapsed : ℤ) : ℕ :=
  if elapsed < 0 ∨ frequency = 0 then 0 else ulong64 (elapsed.toNat * 1000000) / frequency

/-- `StatisticsSlowFetchThresholdQpc`, as `BlorgStatisticsInitialize` sets it. -/
def thresholdQpc (frequency : ℕ) : ℤ := long64 (ulong64 (frequency * thresholdUs) / 1000000)

/-- The record a call makes, `now` and `active` being what the clock and the gauge say. -/
def Call.record (c : Call) (frequency sequence now active : ℕ) : Record
  | .sequence => sequence
  | .completedQpc => now
  | .totalUs => qpcToMicroseconds frequency c.totalQpc
  | .acquireUs => qpcToMicroseconds frequency c.acquireQpc
  | .sendUs => qpcToMicroseconds frequency c.sendQpc
  | .waitUs => qpcToMicroseconds frequency c.waitQpc
  | .ttfbUs => qpcToMicroseconds frequency c.ttfbQpc
  | .bodyUs => qpcToMicroseconds frequency c.bodyQpc
  | .bytes => c.bytes
  | .fetchesActive => active
  | .connectionReused => if c.connectionReused then 1 else 0

/-- A call that is storing its record: the words it has still to store. -/
structure Writing where
  slot : ℕ
  record : Record
  pending : List Word

/-- One processor's ring, and the records of the calls made on it. -/
structure Ring where
  slowFetchSequence : ℕ
  slots : ℕ → Record
  writing : Option Writing
  filed : List Record

namespace Ring

def empty : Ring := ⟨0, fun _ _ => 0, none, []⟩

/-- `BlorgStatisticsRecordSlowFetch` up to its first store. -/
def claim (r : Ring) (frequency : ℕ) (c : Call) (now active : ℕ) : Ring :=
  let sequence := ulong64 (r.slowFetchSequence + 1)
  let record := c.record frequency sequence now active
  { r with slowFetchSequence := sequence, writing := some ⟨sizeSub sequence 1 % perCpu, record, stores⟩, filed := record :: r.filed }

/-- The next word is stored. -/
def store (r : Ring) : Option Ring := do
  let w ← r.writing
  match w.pending with
  | [] => none
  | f :: rest =>
    some { r with
      slots := Function.update r.slots w.slot (Function.update (r.slots w.slot) f (w.record f))
      writing := if rest = [] then none else some { w with pending := rest } }

/-- Some words of a new record are in the slot, but not all. -/
def HalfStored (r : Ring) (i : ℕ) : Prop := ∃ w ∈ r.writing, w.slot = i ∧ w.pending ≠ stores

instance (r : Ring) (i : ℕ) : Decidable (r.HalfStored i) := inferInstanceAs (Decidable (∃ w ∈ r.writing, _))

end Ring

/-! ### A query -/

/-- Where a query is with the processor it is at. -/
inductive Stage
  /-- To add its `SlowFetchSequence` to those seen. -/
  | visit
  /-- To read the `Sequence` of a slot. -/
  | before (i : ℕ)
  /-- Copying a slot, with the words still to be read. -/
  | copy (i : ℕ) (before : ℕ) (record : Record) (todo : List Word)

/-- The locals of `BlorgStatisticsQuery` and what it gives out of the rings. -/
structure Query where
  cpu : ℕ
  stage : Stage
  slowFetchesSeen : ℕ
  out : ℕ → Record
  kept : ℕ

namespace Query

def start : Query := ⟨0, .visit, 0, fun _ _ => 0, 0⟩

/-- The inner loop: the records of later completion move up, those that have room. -/
def shift (record : Record) (out : ℕ → Record) : ℕ → (ℕ → Record) × ℕ
  | 0 => (out, 0)
  | n + 1 =>
    if record .completedQpc < out n .completedQpc then
      shift record (if n + 1 < samples then Function.update out (n + 1) (out n) else out) n
    else (out, n + 1)

/-- A copy is kept. -/
def keep (q : Query) (record : Record) : Query :=
  let (out, place) := shift record q.out q.kept
  if place < samples then
    { q with out := Function.update out place record, kept := if q.kept < samples then q.kept + 1 else q.kept }
  else { q with out := out }

/-- On to the next slot, or the next processor. -/
def advance (q : Query) (i : ℕ) : Query :=
  if i + 1 < perCpu then { q with stage := .before (i + 1) } else { q with cpu := q.cpu + 1, stage := .visit }

end Query

structure State where
  processorCount : ℕ
  frequency : ℕ
  rings : ℕ → Ring
  query : Option Query

/-- One atomic step: a store of a call, or a load of the query. -/
inductive Act
  | record (p : ℕ) (c : Call) (now active : ℕ)
  | store (p : ℕ)
  | query
  | visit
  | before
  /-- The words of a copy are read in any order. -/
  | load (w : Word)
  | after

namespace State

def start (processorCount frequency : ℕ) : State := ⟨processorCount, frequency, fun _ => Ring.empty, none⟩

def setRing (s : State) (p : ℕ) (r : Ring) : State := { s with rings := Function.update s.rings p r }

def setQuery (s : State) (q : Query) : State := { s with query := some q }

def next (s : State) : Act → Option State
  | .record p c now active =>
    if p < s.processorCount ∧ (s.rings p).writing = none then
      if thresholdQpc s.frequency = 0 ∨ c.totalQpc < thresholdQpc s.frequency then some s
      else some (s.setRing p ((s.rings p).claim s.frequency c now active))
    else none
  | .store p => (s.rings p).store.map (s.setRing p)
  | .query => if ∀ q ∈ s.query, q.cpu = s.processorCount then some (s.setQuery Query.start) else none
  | .visit => do
    let q ← s.query
    match q.stage with
    | .visit =>
      if q.cpu < s.processorCount then
        some (s.setQuery { q with stage := .before 0, slowFetchesSeen := ulong64 (q.slowFetchesSeen + (s.rings q.cpu).slowFetchSequence) })
      else none
    | _ => none
  | .before => do
    let q ← s.query
    match q.stage with
    | .before i => some (s.setQuery { q with stage := .copy i ((s.rings q.cpu).slots i .sequence) (fun _ => 0) stores })
    | _ => none
  | .load w => do
    let q ← s.query
    match q.stage with
    | .copy i before record todo =>
      if w ∈ todo then
        some (s.setQuery { q with stage := .copy i before (Function.update record w ((s.rings q.cpu).slots i w)) (todo.erase w) })
      else none
    | _ => none
  | .after => do
    let q ← s.query
    match q.stage with
    | .copy i before record [] =>
      let after := (s.rings q.cpu).slots i .sequence
      if before = 0 ∨ before ≠ after then some (s.setQuery (q.advance i)) else some (s.setQuery ((q.keep record).advance i))
    | _ => none

end State

/-- Calls of all processors one after another on each, and queries, in any order of their steps. -/
def records (processorCount frequency : ℕ) : System State :=
  ⟨fun s => s = State.start processorCount frequency, fun s s' => ∃ act, s.next act = some s'⟩

/-! ### The sort -/

namespace Query

variable {record : Record} {out : ℕ → Record} {n : ℕ} {q : Query}

/-- What the inner loop does: the records from its place on were later, and have moved up one,
those that have room. -/
theorem shift_spec :
    (shift record out n).2 ≤ n ∧
      (∀ j, (shift record out n).2 ≤ j → j < n → record .completedQpc < out j .completedQpc) ∧
      (∀ j, j + 1 = (shift record out n).2 → out j .completedQpc ≤ record .completedQpc) ∧
      ∀ j, (shift record out n).1 j = if (shift record out n).2 < j ∧ j ≤ n ∧ j < samples then out (j - 1) else out j := by
  induction n generalizing out with
  | zero =>
    refine ⟨Nat.le_refl 0, fun j _ hj => absurd hj (Nat.not_lt_zero j), fun j hj => absurd hj (Nat.succ_ne_zero j), fun j => ?_⟩
    rw [if_neg (by omega)]
    rfl
  | succ n ih =>
    by_cases hlt : record .completedQpc < out n .completedQpc
    · set out' := if n + 1 < samples then Function.update out (n + 1) (out n) else out with hout'
      have hshift : shift record out (n + 1) = shift record out' n := by rw [shift, if_pos hlt]
      have hsame : ∀ j, j ≠ n + 1 → out' j = out j := by
        intro j hj
        rw [hout']
        split_ifs with h
        · exact Function.update_of_ne hj _ _
        · rfl
      obtain ⟨hle, hlater, hplace, hmoved⟩ := @ih out'
      rw [hshift]
      refine ⟨by omega, fun j hj hjn => ?_, fun j hj => ?_, fun j => ?_⟩
      · by_cases hn : j = n
        · rw [hn]
          exact hlt
        · rw [← hsame j (by omega)]
          exact hlater j hj (by omega)
      · rw [← hsame j (by omega)]
        exact hplace j hj
      · rw [hmoved j]
        by_cases hj : j = n + 1
        · subst hj
          rw [if_neg (by omega)]
          by_cases hs : n + 1 < samples
          · have hnew : out' (n + 1) = out n := by rw [hout', if_pos hs, Function.update_self]
            rw [hnew, if_pos (by omega), Nat.add_sub_cancel]
          · rw [hout', if_neg hs, if_neg (by omega)]
        · rw [hsame j hj]
          by_cases hin : (shift record out' n).2 < j ∧ j ≤ n ∧ j < samples
          · rw [if_pos hin, if_pos (by omega), hsame (j - 1) (by omega)]
          · rw [if_neg hin, if_neg (by omega)]
    · have hshift : shift record out (n + 1) = (out, n + 1) := by rw [shift, if_neg hlt]
      rw [hshift]
      refine ⟨Nat.le_refl _, fun j hj hjn => by omega, fun j hj => ?_, fun j => ?_⟩
      · obtain rfl : j = n := by omega
        omega
      · rw [if_neg (by omega)]

/-- What is kept is in the order of completion. -/
def Ordered (q : Query) : Prop := ∀ j k, j < k → k < q.kept → q.out j .completedQpc ≤ q.out k .completedQpc

/-- All that is kept satisfies `P`. -/
def All (P : Record → Prop) (q : Query) : Prop := ∀ j < q.kept, P (q.out j)

theorem keep_place (hp : (shift record q.out q.kept).2 < samples) :
    q.keep record = { q with
      out := Function.update (shift record q.out q.kept).1 (shift record q.out q.kept).2 record
      kept := if q.kept < samples then q.kept + 1 else q.kept } := by
  simp only [keep, if_pos hp]

theorem keep_full (hp : ¬ (shift record q.out q.kept).2 < samples) : q.keep record = { q with out := (shift record q.out q.kept).1 } := by
  simp only [keep, if_neg hp]

/-- The records kept after one more, those from its place on one further. -/
theorem keep_out (hk : q.kept ≤ samples) :
    ∃ place, place ≤ q.kept ∧ (∀ j, place ≤ j → j < q.kept → record .completedQpc < q.out j .completedQpc) ∧
      (∀ j, j + 1 = place → q.out j .completedQpc ≤ record .completedQpc) ∧ (q.keep record).kept ≤ samples ∧ (q.keep record).kept ≤ q.kept + 1 ∧
      ∀ j < (q.keep record).kept, (q.keep record).out j = if j < place then q.out j else if j = place then record else q.out (j - 1) := by
  obtain ⟨hle, hlater, hplace, hmoved⟩ := @shift_spec record q.out q.kept
  refine ⟨_, hle, hlater, hplace, ?_⟩
  by_cases hp : (shift record q.out q.kept).2 < samples
  · rw [keep_place hp]
    have hkept : (if q.kept < samples then q.kept + 1 else q.kept) ≤ samples ∧ (if q.kept < samples then q.kept + 1 else q.kept) ≤ q.kept + 1 := by
      split_ifs <;> omega
    refine ⟨hkept.1, hkept.2, fun j hj => ?_⟩
    have hj : j < if q.kept < samples then q.kept + 1 else q.kept := hj
    show Function.update (shift record q.out q.kept).1 (shift record q.out q.kept).2 record j = _
    by_cases hjp : j = (shift record q.out q.kept).2
    · rw [if_neg (by omega), if_pos hjp, hjp, Function.update_self]
    · rw [Function.update_of_ne hjp, hmoved j]
      by_cases hlt : j < (shift record q.out q.kept).2
      · rw [if_neg (by omega), if_pos hlt]
      · rw [if_pos (by omega), if_neg hlt, if_neg hjp]
  · rw [keep_full hp]
    refine ⟨hk, Nat.le_succ _, fun j hj => ?_⟩
    have hj : j < q.kept := hj
    show (shift record q.out q.kept).1 j = _
    rw [hmoved j, if_neg (by omega), if_pos (by omega)]

theorem Ordered.keep (h : q.Ordered) (hk : q.kept ≤ samples) : (q.keep record).Ordered := by
  obtain ⟨place, hpk, hlater, hplace, _, hle, hout⟩ := @keep_out record q hk
  have hbelow : ∀ j < place, q.out j .completedQpc ≤ record .completedQpc := by
    intro j hj
    by_cases hlast : j + 1 = place
    · exact hplace j hlast
    · exact Nat.le_trans (h j (place - 1) (by omega) (by omega)) (hplace (place - 1) (by omega))
  intro j k hjk hkk
  rw [hout j (by omega), hout k hkk]
  split_ifs with h1 h2 h3 h4 h5
  · exact h j k hjk (by omega)
  · exact hbelow j h1
  · exact Nat.le_trans (hbelow j h1) (Nat.le_of_lt (hlater (k - 1) (by omega) (by omega)))
  · omega
  · omega
  · exact Nat.le_of_lt (hlater (k - 1) (by omega) (by omega))
  · omega
  · omega
  · exact h (j - 1) (k - 1) (by omega) (by omega)

theorem All.keep {P : Record → Prop} (h : q.All P) (hk : q.kept ≤ samples) (hP : P record) : (q.keep record).All P := by
  obtain ⟨place, hpk, _, _, _, hle, hout⟩ := @keep_out record q hk
  intro j hj
  rw [hout j hj]
  split_ifs with h1 h2
  · exact h j (by omega)
  · exact hP
  · exact h (j - 1) (by omega)

theorem keep_kept_le (hk : q.kept ≤ samples) : (q.keep record).kept ≤ samples := by
  obtain ⟨_, _, _, _, hle, _⟩ := @keep_out record q hk
  exact hle

@[simp] theorem keep_cpu : (q.keep record).cpu = q.cpu := by
  simp only [keep]
  split_ifs <;> rfl

@[simp] theorem keep_stage : (q.keep record).stage = q.stage := by
  simp only [keep]
  split_ifs <;> rfl

@[simp] theorem advance_kept (i : ℕ) : (q.advance i).kept = q.kept := by
  unfold advance
  split_ifs <;> rfl

@[simp] theorem advance_out (i : ℕ) : (q.advance i).out = q.out := by
  unfold advance
  split_ifs <;> rfl

end Query

/-! ### Whole records -/

/-- What is left of the stores but for the first: the next word is not among the rest, and it
is `Sequence` exactly where nothing is left after it. -/
theorem pending_cons {f : Word} {rest : List Word} (h : f :: rest <:+ stores) :
    f ∉ rest ∧ rest <:+ stores ∧ (rest = [] ↔ f = .sequence) := by
  have hnodup : (f :: rest).Nodup := List.Nodup.sublist h.sublist (by decide)
  have hf : f ∉ rest := (List.nodup_cons.mp hnodup).1
  have hlast : (f :: rest).getLast? = some .sequence := by
    obtain ⟨done, hd⟩ := h
    have hstores : stores.getLast? = some .sequence := by decide
    rwa [← hd, List.getLast?_append_of_ne_nil _ (List.cons_ne_nil _ _)] at hstores
  refine ⟨hf, (List.suffix_cons f rest).trans h, ?_, ?_⟩
  · rintro rfl
    exact Option.some.inj hlast
  · rintro rfl
    by_contra hne
    rw [List.getLast?_cons_of_ne_nil hne] at hlast
    exact hf (List.mem_of_getLast? hlast)

namespace Ring

variable {r r' : Ring} {i : ℕ}

/-- The word of the slot is not yet one of the record being stored there. -/
def Untouched (r : Ring) (i : ℕ) (f : Word) : Prop := ∀ w ∈ r.writing, w.slot = i → f ∈ w.pending

/-- A slot holds one call's record, or none, or is half stored: then its `Sequence` is still
that of the record before. -/
structure Inv (r : Ring) : Prop where
  sequence : ∀ i, r.slots i .sequence ≤ r.slowFetchSequence
  whole : ∀ i, ¬ r.HalfStored i → r.slots i .sequence ≠ 0 → r.slots i ∈ r.filed
  below : ∀ w ∈ r.writing, w.record .sequence = r.slowFetchSequence ∧ ∀ i, r.slots i .sequence < r.slowFetchSequence
  filed : ∀ w ∈ r.writing, w.record ∈ r.filed
  pending : ∀ w ∈ r.writing, w.pending <:+ stores ∧ w.pending ≠ []
  stored : ∀ w ∈ r.writing, ∀ f ∉ w.pending, r.slots w.slot f = w.record f

theorem Inv.empty : Inv empty where
  sequence _ := Nat.le_refl 0
  whole _ _ h := absurd rfl h
  below _ h := by cases h
  filed _ h := by cases h
  pending _ h := by cases h
  stored _ h := by cases h

theorem untouched_of_not_halfStored (h : ¬ r.HalfStored i) (f : Word) : r.Untouched i f := by
  intro w hw hi
  by_contra hf
  exact h ⟨w, hw, hi, fun he => hf (he ▸ mem_stores f)⟩

theorem Inv.claim (h : r.Inv) (hw : r.writing = none) (hlt : r.slowFetchSequence + 1 < 2 ^ 64) (frequency : ℕ) (c : Call) (now active : ℕ) :
    (r.claim frequency c now active).Inv := by
  have hseq : (r.claim frequency c now active).slowFetchSequence = r.slowFetchSequence + 1 := ulong64_of_lt hlt
  have hlow : ∀ i, r.slots i .sequence < (r.claim frequency c now active).slowFetchSequence := fun i => by
    rw [hseq]
    exact Nat.lt_succ_of_le (h.sequence i)
  have hhalf : ∀ i, ¬ r.HalfStored i := fun i ⟨w, hm, _⟩ => by
    rw [hw] at hm
    cases hm
  have hnew : ∀ w ∈ (r.claim frequency c now active).writing, w.pending = stores ∧ w.record ∈ (r.claim frequency c now active).filed ∧
      w.record .sequence = (r.claim frequency c now active).slowFetchSequence := fun w hm =>
    Option.some.inj hm ▸ ⟨rfl, List.mem_cons_self, rfl⟩
  exact {
    sequence := fun i => Nat.le_of_lt (hlow i)
    whole := fun i _ h0 => List.mem_cons_of_mem _ (h.whole i (hhalf i) h0)
    below := fun w hm => ⟨(hnew w hm).2.2, hlow⟩
    filed := fun w hm => (hnew w hm).2.1
    pending := fun w hm => by
      rw [(hnew w hm).1]
      exact ⟨List.suffix_rfl, List.cons_ne_nil _ _⟩
    stored := fun w hm f hf => absurd ((hnew w hm).1 ▸ mem_stores f) hf }

/-- What a store does: the next word of the record is in the slot, and after `Sequence` the
record is done. -/
structure Stored (r r' : Ring) (w : Writing) (f : Word) (rest : List Word) : Prop where
  writing : r.writing = some w
  pending : w.pending = f :: rest
  slot : r'.slots w.slot = Function.update (r.slots w.slot) f (w.record f)
  other : ∀ i, i ≠ w.slot → r'.slots i = r.slots i
  next : r'.writing = if rest = [] then none else some { w with pending := rest }
  filed : r'.filed = r.filed
  slowFetchSequence : r'.slowFetchSequence = r.slowFetchSequence

theorem exists_stored (he : r.store = some r') : ∃ w f rest, Stored r r' w f rest := by
  obtain ⟨w, hw, he⟩ := Option.bind_eq_some_iff.mp he
  split at he
  next => cases he
  next f rest hp =>
    cases he
    exact ⟨w, f, rest, hw, hp, Function.update_self .., fun i hi => Function.update_of_ne hi _ _, rfl, rfl, rfl⟩

/-- The last store makes the slot the record. -/
theorem Stored.last {w : Writing} {f : Word} (hs : Stored r r' w f []) (h : r.Inv) : r'.slots w.slot = w.record := by
  funext g
  rw [hs.slot]
  by_cases hg : g = f
  · rw [hg, Function.update_self]
  · rw [Function.update_of_ne hg]
    exact h.stored w hs.writing g (by simp [hs.pending, hg])

/-- A store before the last leaves `Sequence` as it is. -/
theorem Stored.sequence {w : Writing} {f : Word} {rest : List Word} (hs : Stored r r' w f rest) (h : r.Inv) (hr : rest ≠ []) (i : ℕ) :
    r'.slots i .sequence = r.slots i .sequence := by
  by_cases hi : i = w.slot
  · have hf : f ≠ .sequence := fun hf => hr ((pending_cons (hs.pending ▸ (h.pending w hs.writing).1)).2.2.mpr hf)
    rw [hi, hs.slot, Function.update_of_ne hf.symm]
  · rw [hs.other i hi]

theorem Inv.store_last {w : Writing} {f : Word} (h : r.Inv) (hs : Stored r r' w f []) : r'.Inv := by
  have hnone : r'.writing = none := by rw [hs.next, if_pos rfl]
  have hno : ∀ w', w' ∉ r'.writing := fun w' => hnone ▸ Option.not_mem_none w'
  obtain ⟨hseq, hbelow⟩ := h.below w hs.writing
  have hlast := hs.last h
  exact {
    sequence := fun i => by
      rw [hs.slowFetchSequence]
      by_cases hi : i = w.slot
      · rw [hi, hlast, hseq]
      · rw [hs.other i hi]
        exact h.sequence i
    whole := fun i _ h0 => by
      rw [hs.filed]
      by_cases hi : i = w.slot
      · rw [hi, hlast]
        exact h.filed w hs.writing
      · rw [hs.other i hi] at h0 ⊢
        refine h.whole i (fun ⟨w', hw', hi', _⟩ => hi ?_) h0
        rw [← hi', Option.mem_unique hw' hs.writing]
    below := fun w' hw' => absurd hw' (hno w')
    filed := fun w' hw' => absurd hw' (hno w')
    pending := fun w' hw' => absurd hw' (hno w')
    stored := fun w' hw' => absurd hw' (hno w') }

theorem Inv.store_word {w : Writing} {f : Word} {rest : List Word} (h : r.Inv) (hs : Stored r r' w f rest) (hr : rest ≠ []) : r'.Inv := by
  have hnext : r'.writing = some { w with pending := rest } := by rw [hs.next, if_neg hr]
  have hsuffix : f :: rest <:+ stores := hs.pending ▸ (h.pending w hs.writing).1
  obtain ⟨hf, hrest, _⟩ := pending_cons hsuffix
  obtain ⟨hseq, hbelow⟩ := h.below w hs.writing
  have hsame := hs.sequence h hr
  have hw : ∀ w' ∈ r'.writing, w' = { w with pending := rest } := fun w' hw' => (Option.some.inj (hnext ▸ hw')).symm
  exact {
    sequence := fun i => by
      rw [hsame, hs.slowFetchSequence]
      exact h.sequence i
    whole := fun i hi h0 => by
      have hne : i ≠ w.slot := fun he => hi ⟨_, hnext, he.symm, fun (hall : rest = stores) => hf (hall ▸ mem_stores f)⟩
      rw [hs.filed, hs.other i hne]
      rw [hsame] at h0
      refine h.whole i (fun ⟨w', hw', hi', _⟩ => hne ?_) h0
      rw [← hi', Option.mem_unique hw' hs.writing]
    below := fun w' hw' => by
      rw [hw w' hw', hs.slowFetchSequence]
      exact ⟨hseq, fun i => hsame i ▸ hbelow i⟩
    filed := fun w' hw' => by
      rw [hw w' hw', hs.filed]
      exact h.filed w hs.writing
    pending := fun w' hw' => by
      rw [hw w' hw']
      exact ⟨hrest, hr⟩
    stored := fun w' hw' g hg => by
      rw [hw w' hw'] at hg ⊢
      show r'.slots w.slot g = w.record g
      rw [hs.slot]
      by_cases hgf : g = f
      · rw [hgf, Function.update_self]
      · rw [Function.update_of_ne hgf]
        exact h.stored w hs.writing g (by simpa [hs.pending, hgf] using hg) }

theorem Inv.store (h : r.Inv) (he : r.store = some r') : r'.Inv := by
  obtain ⟨w, f, rest, hs⟩ := exists_stored he
  by_cases hr : rest = []
  · subst hr
    exact h.store_last hs
  · exact h.store_word hs hr

/-! ### A copy and its slot -/

/-- A copy, where the slot has the `Sequence` it began with: the words read are those of the
slot, but for what has been stored over since. -/
structure Copied (r : Ring) (i before : ℕ) (record : Record) (todo : List Word) : Prop where
  le : before ≤ r.slots i .sequence
  agrees : r.slots i .sequence = before → ∀ f ∉ todo, r.Untouched i f → record f = r.slots i f

variable {before : ℕ} {record : Record} {todo : List Word}

theorem Copied.begin : Copied r i (r.slots i .sequence) record stores where
  le := Nat.le_refl _
  agrees _ f hf := absurd (mem_stores f) hf

theorem Copied.load (h : Copied r i before record todo) (f : Word) : Copied r i before (Function.update record f (r.slots i f)) (todo.erase f) where
  le := h.le
  agrees heq g hg hu := by
    by_cases hgf : g = f
    · rw [hgf, Function.update_self]
    · rw [Function.update_of_ne hgf]
      exact h.agrees heq g (fun hm => hg ((List.mem_erase_of_ne hgf).mpr hm)) hu

theorem Copied.claim (h : Copied r i before record todo) (hw : r.writing = none) (frequency : ℕ) (c : Call) (now active : ℕ) :
    Copied (r.claim frequency c now active) i before record todo where
  le := h.le
  agrees heq f hf _ := h.agrees heq f hf fun w hm => by
    rw [hw] at hm
    cases hm

theorem Copied.store (h : Copied r i before record todo) (hi : r.Inv) (he : r.store = some r') : Copied r' i before record todo := by
  obtain ⟨w, f, rest, hs⟩ := exists_stored he
  obtain ⟨hseq, hbelow⟩ := hi.below w hs.writing
  by_cases hiw : i = w.slot
  · subst hiw
    by_cases hr : rest = []
    · -- the record is done, and later than any whose `Sequence` was read here
      subst hr
      have hnew : before < r'.slots w.slot .sequence := by
        rw [hs.last hi, hseq]
        exact Nat.lt_of_le_of_lt h.le (hbelow w.slot)
      exact ⟨Nat.le_of_lt hnew, fun heq => absurd heq (Nat.ne_of_gt hnew)⟩
    · have hsame := hs.sequence hi hr w.slot
      have hnext : r'.writing = some { w with pending := rest } := by rw [hs.next, if_neg hr]
      have hf := (pending_cons (hs.pending ▸ (hi.pending w hs.writing).1)).1
      refine ⟨hsame.symm ▸ h.le, fun heq g hg hu => ?_⟩
      have hgrest : g ∈ rest := hu _ hnext rfl
      have hgf : g ≠ f := fun he => hf (he ▸ hgrest)
      rw [hs.slot, Function.update_of_ne hgf]
      refine h.agrees (hsame ▸ heq) g hg fun w' hw' _ => ?_
      rw [Option.mem_unique hw' hs.writing, hs.pending]
      exact List.mem_cons_of_mem _ hgrest
  · have hsame := hs.other i hiw
    refine ⟨hsame.symm ▸ h.le, fun heq g hg _ => ?_⟩
    rw [hsame] at heq ⊢
    refine h.agrees heq g hg fun w' hw' hi' => absurd ?_ hiw
    rw [← hi', Option.mem_unique hw' hs.writing]

/-- A copy that is kept is one call's record. -/
theorem Copied.mem_filed (h : Copied r i before record []) (hi : r.Inv) (h0 : before ≠ 0) (heq : before = r.slots i .sequence)
    (hhalf : ¬ r.HalfStored i) : record ∈ r.filed := by
  have hrecord : record = r.slots i := by
    funext f
    exact h.agrees heq.symm f List.not_mem_nil (untouched_of_not_halfStored hhalf f)
  rw [hrecord]
  exact hi.whole i hhalf (heq ▸ h0)

end Ring

/-! ### Runs -/

namespace State

variable {s s' : State}

/-- The copy the query is at is not one that is kept of a slot that is half stored. -/
def KeepsWhole (s : State) (q : Query) : Prop :=
  match q.stage with
  | .copy i before _ [] => before = (s.rings q.cpu).slots i .sequence → ¬ (s.rings q.cpu).HalfStored i
  | _ => True

instance (s : State) (q : Query) : Decidable (s.KeepsWhole q) := by
  unfold KeepsWhole
  split <;> infer_instance

/-- The step does not keep a copy of a slot that is half stored, nor begin a processor's
2⁶⁴th record. -/
def Apart (s : State) : Act → Prop
  | .record p _ _ _ => (s.rings p).slowFetchSequence + 1 < 2 ^ 64
  | .after => ∀ q ∈ s.query, s.KeepsWhole q
  | _ => True

instance (s : State) (act : Act) : Decidable (s.Apart act) := by
  cases act <;> unfold Apart <;> infer_instance

/-- What some call recorded. -/
def Filed (s : State) (record : Record) : Prop := ∃ p < s.processorCount, record ∈ (s.rings p).filed

/-- Where a query stands: what it keeps are records of calls, in the order of completion, and
the copy it is at, if it is at one, is as `Ring.Copied` says. -/
structure Sound (s : State) (q : Query) : Prop where
  bounded : q.kept ≤ samples
  ordered : q.Ordered
  filed : q.All s.Filed
  cpu : q.stage ≠ .visit → q.cpu < s.processorCount
  copying : ∀ i before record todo, q.stage = .copy i before record todo → (s.rings q.cpu).Copied i before record todo

/-- What holds in a run whose steps are all apart. -/
structure Inv (s : State) : Prop where
  rings : ∀ p, (s.rings p).Inv
  query : ∀ q ∈ s.query, s.Sound q

theorem Inv.start (n frequency : ℕ) : (start n frequency).Inv := ⟨fun _ => Ring.Inv.empty, fun _ h => by cases h⟩

theorem Sound.start : s.Sound Query.start where
  bounded := Nat.zero_le _
  ordered _ _ _ h := absurd h (Nat.not_lt_zero _)
  filed _ h := absurd h (Nat.not_lt_zero _)
  cpu h := absurd rfl h
  copying _ _ _ _ h := by cases h

/-- A query goes to another stage. -/
theorem Sound.setStage {q q' : Query} (h : s.Sound q) (hout : q'.out = q.out) (hkept : q'.kept = q.kept)
    (hcpu : q'.stage ≠ .visit → q'.cpu < s.processorCount)
    (hcopying : ∀ i before record todo, q'.stage = .copy i before record todo → (s.rings q'.cpu).Copied i before record todo) : s.Sound q' where
  bounded := hkept ▸ h.bounded
  ordered j k := by
    rw [hout, hkept]
    exact h.ordered j k
  filed j := by
    rw [hout, hkept]
    exact h.filed j
  cpu := hcpu
  copying := hcopying

theorem Sound.advance {q : Query} (h : s.Sound q) (hcpu : q.cpu < s.processorCount) (i : ℕ) : s.Sound (q.advance i) := by
  refine h.setStage (Query.advance_out i) (Query.advance_kept i) (fun hv => ?_) fun _ _ _ _ hc => ?_
  · unfold Query.advance at hv ⊢
    split_ifs at hv ⊢
    · exact hcpu
    · exact absurd rfl hv
  · unfold Query.advance at hc
    split_ifs at hc

theorem Sound.keep {q : Query} {record : Record} (h : s.Sound q) (hf : s.Filed record) : s.Sound (q.keep record) where
  bounded := Query.keep_kept_le h.bounded
  ordered := h.ordered.keep h.bounded
  filed := h.filed.keep h.bounded hf
  cpu hs := by
    rw [Query.keep_cpu]
    exact h.cpu (Query.keep_stage ▸ hs)
  copying i before record todo hs := by
    rw [Query.keep_cpu]
    exact h.copying i before record todo (Query.keep_stage ▸ hs)

theorem setRing_self (p : ℕ) (r : Ring) : (s.setRing p r).rings p = r := by simp [setRing]

theorem setRing_of_ne {p q : ℕ} (h : q ≠ p) (r : Ring) : (s.setRing p r).rings q = s.rings q := by simp [setRing, h]

/-- A processor's ring changes, its records are kept, and so is what a copy says of it. -/
theorem Inv.setRing {p : ℕ} {r : Ring} (h : s.Inv) (hr : r.Inv) (hfiled : (s.rings p).filed ⊆ r.filed)
    (hcopied : ∀ i before record todo, (s.rings p).Copied i before record todo → r.Copied i before record todo) : (s.setRing p r).Inv where
  rings q := by
    by_cases hq : q = p
    · rw [hq, setRing_self]
      exact hr
    · rw [setRing_of_ne hq]
      exact h.rings q
  query q hq := by
    have hs := h.query q hq
    exact {
      bounded := hs.bounded
      ordered := hs.ordered
      filed := fun j hj => by
        obtain ⟨p', hp', hmem⟩ := hs.filed j hj
        refine ⟨p', hp', ?_⟩
        by_cases he : p' = p
        · rw [he, setRing_self]
          exact hfiled (he ▸ hmem)
        · rw [setRing_of_ne he]
          exact hmem
      cpu := hs.cpu
      copying := fun i before record todo hst => by
        have hc := hs.copying i before record todo hst
        by_cases he : q.cpu = p
        · rw [he, setRing_self]
          exact hcopied i before record todo (he ▸ hc)
        · rw [setRing_of_ne he]
          exact hc }

theorem Inv.setQuery {q : Query} (h : s.Inv) (hq : s.Sound q) : (s.setQuery q).Inv where
  rings := h.rings
  query q' hq' := by
    obtain rfl : q = q' := Option.some.inj hq'
    exact ⟨hq.bounded, hq.ordered, hq.filed, hq.cpu, hq.copying⟩

theorem Inv.next {act : Act} (h : s.Inv) (ha : s.Apart act) (he : s.next act = some s') : s'.Inv := by
  cases act with
  | record p c now active =>
    obtain ⟨⟨_, hw⟩, he⟩ := Option.ite_none_right_eq_some.mp he
    split at he
    next =>
      cases he
      exact h
    next =>
      cases he
      exact h.setRing ((h.rings p).claim hw ha _ c now active) (List.subset_cons_self _ _) fun _ _ _ _ hc => hc.claim hw _ c now active
  | store p =>
    obtain ⟨r, hr, he⟩ := Option.map_eq_some_iff.mp he
    cases he
    obtain ⟨w, f, rest, hs⟩ := Ring.exists_stored hr
    exact h.setRing ((h.rings p).store hr) (hs.filed ▸ List.Subset.refl _) fun _ _ _ _ hc => hc.store (h.rings p) hr
  | query =>
    obtain ⟨_, he⟩ := Option.ite_none_right_eq_some.mp he
    cases he
    exact h.setQuery .start
  | visit =>
    obtain ⟨q, hq, he⟩ := Option.bind_eq_some_iff.mp he
    split at he
    next =>
      obtain ⟨hcpu, he⟩ := Option.ite_none_right_eq_some.mp he
      cases he
      exact h.setQuery ((h.query q hq).setStage rfl rfl (fun _ => hcpu) fun _ _ _ _ hc => by cases hc)
    next => cases he
  | before =>
    obtain ⟨q, hq, he⟩ := Option.bind_eq_some_iff.mp he
    split at he
    next i hst =>
      cases he
      have hcpu : q.cpu < s.processorCount := (h.query q hq).cpu (by rw [hst]; exact Stage.noConfusion)
      refine h.setQuery ((h.query q hq).setStage rfl rfl (fun _ => hcpu) fun j before record todo hc => ?_)
      cases hc
      exact .begin
    next => cases he
  | load w =>
    obtain ⟨q, hq, he⟩ := Option.bind_eq_some_iff.mp he
    split at he
    next i before record todo hst =>
      obtain ⟨_, he⟩ := Option.ite_none_right_eq_some.mp he
      cases he
      have hcpu : q.cpu < s.processorCount := (h.query q hq).cpu (by rw [hst]; exact Stage.noConfusion)
      have hcopied := (h.query q hq).copying i before record todo hst
      refine h.setQuery ((h.query q hq).setStage rfl rfl (fun _ => hcpu) fun j before record todo hc => ?_)
      cases hc
      exact hcopied.load w
    next => cases he
  | after =>
    obtain ⟨q, hq, he⟩ := Option.bind_eq_some_iff.mp he
    split at he
    next i before record hst =>
      have hs := h.query q hq
      have hcpu : q.cpu < s.processorCount := hs.cpu (by rw [hst]; exact Stage.noConfusion)
      have he : (if before = 0 ∨ before ≠ (s.rings q.cpu).slots i .sequence then some (s.setQuery (q.advance i))
          else some (s.setQuery ((q.keep record).advance i))) = some s' := he
      split at he
      next =>
        cases he
        exact h.setQuery (hs.advance hcpu i)
      next hkeep =>
        cases he
        obtain ⟨h0, heq⟩ := not_or.mp hkeep
        have heq : before = (s.rings q.cpu).slots i .sequence := not_not.mp heq
        have hwhole : before = (s.rings q.cpu).slots i .sequence → ¬ (s.rings q.cpu).HalfStored i := by
          have := ha q hq
          rw [KeepsWhole, hst] at this
          exact this
        have hfiled : s.Filed record :=
          ⟨q.cpu, hcpu, (hs.copying i before record [] hst).mem_filed (h.rings q.cpu) h0 heq (hwhole heq)⟩
        exact h.setQuery ((hs.keep hfiled).advance (Query.keep_cpu.symm ▸ hcpu) i)
    next => cases he

end State

/-- The runs of `records` whose steps are all apart. -/
def recordsApart (processorCount frequency : ℕ) : System State :=
  ⟨fun s => s = State.start processorCount frequency, fun s s' => ∃ act, s.Apart act ∧ s.next act = some s'⟩

/-- In a run that keeps no copy of a half-stored slot every record kept is that of one call,
and the records are in the order of completion. -/
theorem records_whole {n frequency : ℕ} {s : State} {q : Query} (h : (recordsApart n frequency).Reachable s) (hq : s.query = some q) :
    (∀ j < q.kept, ∃ p < s.processorCount, q.out j ∈ (s.rings p).filed) ∧
      ∀ j k, j < k → k < q.kept → q.out j .completedQpc ≤ q.out k .completedQpc := by
  have hinv : s.Inv := System.invariant (fun _ he => he ▸ State.Inv.start n frequency) (fun _ _ _ hi ⟨_, ha, he⟩ => hi.next ha he) h
  have hs := hinv.query q hq
  exact ⟨hs.filed, hs.ordered⟩

/-- Where the clock ticks every microsecond, a fetch of 0.3 s. -/
def fetchOf (bytes : ℕ) : Call := ⟨300000, 0, 0, 0, 300000, 0, bytes, true⟩

/-- A call on processor 0 from begin to end. -/
def recorded (bytes now : ℕ) : List Act := .record 0 (fetchOf bytes) now 1 :: List.replicate stores.length (.store 0)

/-- A slot read from begin to end. -/
def copied : List Act := .before :: stores.map .load ++ [.after]

/-- A query while the fifth record goes over the first, which has been copied. -/
theorem records_whole_ringWraps :
    ∃ s q, (recordsApart 2 1000000).Reachable s ∧ s.query = some q ∧ q.kept = 4 ∧
      (∀ j < q.kept, ∃ p < s.processorCount, q.out j ∈ (s.rings p).filed) ∧
        ∀ j k, j < k → k < q.kept → q.out j .completedQpc ≤ q.out k .completedQpc := by
  have hrun : (run (fun s act => if s.Apart act then s.next act else none) (State.start 2 1000000)
      (recorded 10 4 ++ recorded 20 3 ++ recorded 30 8 ++ recorded 40 9 ++ [.query, .visit] ++ copied ++
        [.record 0 (fetchOf 50) 12 2, .store 0] ++ copied ++ [.store 0] ++ copied ++ copied)).any
      (fun s => s.query.any fun q => q.kept = 4) = true := by decide +kernel
  obtain ⟨s, hs, hq⟩ := (Option.any_eq_true _ _).mp hrun
  obtain ⟨q, hq, hk⟩ := (Option.any_eq_true _ _).mp hq
  have hnext : ∀ s act s', (if s.Apart act then s.next act else none) = some s' → (recordsApart 2 1000000).step s s' := fun s act s' he =>
    ⟨act, Option.ite_none_right_eq_some.mp he⟩
  have hr : (recordsApart 2 1000000).Reachable s := System.Reachable.run hnext (.init rfl) hs
  exact ⟨s, q, hr, hq, of_decide_eq_true hk, records_whole hr hq⟩

/-- A query reads the `Sequence` of the first record, then the fifth stores its first word in
the slot, and the copy of the one and the other is kept: `Sequence` has not moved. -/
theorem record_of_two_fetches :
    ∃ s q, (records 2 1000000).Reachable s ∧ s.query = some q ∧ 0 < q.kept ∧ ∀ p < s.processorCount, q.out 0 ∉ (s.rings p).filed := by
  have hrun : (run State.next (State.start 2 1000000)
      (recorded 10 4 ++ recorded 20 3 ++ recorded 30 8 ++ recorded 40 9 ++ [.query, .visit, .before, .record 0 (fetchOf 50) 12 2, .store 0] ++
        copied.tail)).any
      (fun s => s.query.any fun q => decide (0 < q.kept ∧ ∀ p < s.processorCount, q.out 0 ∉ (s.rings p).filed)) = true := by decide +kernel
  obtain ⟨s, hs, hq⟩ := (Option.any_eq_true _ _).mp hrun
  obtain ⟨q, hq, hk⟩ := (Option.any_eq_true _ _).mp hq
  have hnext : ∀ s act s', State.next s act = some s' → (records 2 1000000).step s s' := fun s act s' he => ⟨act, he⟩
  exact ⟨s, q, System.Reachable.run hnext (.init rfl) hs, hq, of_decide_eq_true hk⟩

end BlorgFS.Statistics.SlowFetches
