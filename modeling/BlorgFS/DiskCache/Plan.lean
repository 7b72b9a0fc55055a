import BlorgFS.DiskCache.Parts
import BlorgFS.Lib.Cheapest

/-! What `BlorgDiskCacheIndexPlanRead` gives up. Two runs of missing blocks become one when all
of the held blocks between them are given up, and nothing else saves a run; so the lengths of
the gaps between runs are all that counts, each round takes the shortest, and taking the
shortest each time costs least. -/

namespace BlorgFS.DiskCache

open Lib

variable {slots slots' l m : List (Option ℕ)} {s : Option ℕ} {n : ℕ}

/-! ### The gaps between runs of missing blocks -/

/-- The gap a run of missing blocks ends, if one came before: the held blocks since. -/
def ends : Option ℕ → List ℕ
  | some (n + 1) => [n + 1]
  | _ => []

/-- The gaps between missing blocks, where `s` says how many held ones there are since the last
missing one, if there has been one. -/
def gapsFrom : Option ℕ → List (Option ℕ) → List ℕ
  | _, [] => []
  | s, none :: slots => ends s ++ gapsFrom (some 0) slots
  | s, some _ :: slots => gapsFrom (s.map (· + 1)) slots

/-- The held blocks since the last missing one. -/
def heldSince : Option ℕ → List (Option ℕ) → Option ℕ
  | s, [] => s
  | _, none :: slots => heldSince (some 0) slots
  | s, some _ :: slots => heldSince (s.map (· + 1)) slots

def gapLengths (slots : List (Option ℕ)) : List ℕ := gapsFrom none slots

theorem gapsFrom_append (s : Option ℕ) (l m : List (Option ℕ)) : gapsFrom s (l ++ m) = gapsFrom s l ++ gapsFrom (heldSince s l) m := by
  induction l generalizing s with
  | nil => rfl
  | cons slot l ih => cases slot <;> simp [gapsFrom, heldSince, ih]

theorem heldSince_append (s : Option ℕ) (l m : List (Option ℕ)) : heldSince s (l ++ m) = heldSince (heldSince s l) m := by
  induction l generalizing s with
  | nil => rfl
  | cons slot l ih => cases slot <;> simp [heldSince, ih]

theorem gapsFrom_of_held (s : Option ℕ) (h : none ∉ l) : gapsFrom s l = [] := by
  induction l generalizing s with
  | nil => rfl
  | cons slot l ih =>
    cases slot with
    | none => exact absurd List.mem_cons_self h
    | some held => exact ih _ (List.not_mem_of_not_mem_cons h)

theorem heldSince_of_held (n : ℕ) (h : none ∉ l) : heldSince (some n) l = some (n + l.length) := by
  induction l generalizing n with
  | nil => rfl
  | cons slot l ih =>
    cases slot with
    | none => exact absurd List.mem_cons_self h
    | some held =>
      rw [List.length_cons, ← Nat.add_assoc, Nat.add_right_comm]
      exact ih (n + 1) (List.not_mem_of_not_mem_cons h)

theorem gapsFrom_replicate (n : ℕ) : gapsFrom (some 0) (List.replicate n none) = [] ∧ heldSince (some 0) (List.replicate n none) = some 0 := by
  induction n with
  | zero => exact ⟨rfl, rfl⟩
  | succ n ih => exact ih

theorem heldSince_eq_none : heldSince s l = none ↔ s = none ∧ none ∉ l := by
  induction l generalizing s with
  | nil => simp [heldSince]
  | cons slot l ih => cases slot <;> simp [heldSince, ih]

/-- Held blocks since a missing one are the end of the list, and the missing one is before them. -/
theorem heldSince_split (h : heldSince none l = some n) : ∃ front held, l = front ++ none :: held ∧ held.length = n ∧ none ∉ held := by
  induction l using List.reverseRecOn generalizing n with
  | nil => cases h
  | append_singleton l slot ih =>
    rw [heldSince_append] at h
    cases slot with
    | none =>
      obtain rfl : 0 = n := Option.some.inj h
      exact ⟨l, [], rfl, rfl, nofun⟩
    | some block =>
      obtain ⟨k, hk, rfl⟩ := Option.map_eq_some_iff.mp h
      obtain ⟨front, held, rfl, rfl, hheld⟩ := ih hk
      refine ⟨front, held ++ [some block], by simp, by simp, ?_⟩
      simpa using hheld

/-- The runs of missing blocks are one more than the gaps between them. -/
theorem gaps_eq_length : gaps false l = (gapLengths l).length + if none ∈ l then 1 else 0 := by
  have hsince : ∀ (l : List (Option ℕ)) (n : ℕ), gaps (n = 0) l = (gapsFrom (some n) l).length := by
    intro l
    induction l with
    | nil => exact fun _ => rfl
    | cons slot l ih =>
      intro n
      cases slot with
      | none =>
        have h0 := ih 0
        simp only [decide_true] at h0
        cases n <;> simp [gaps, gapsFrom, ends, h0, Nat.add_comm]
      | some held =>
        have h1 := ih (n + 1)
        simp only [Nat.add_eq_zero_iff, one_ne_zero, and_false, decide_false] at h1
        simpa [gaps, gapsFrom] using h1
  unfold gapLengths
  induction l with
  | nil => rfl
  | cons slot l ih =>
    cases slot with
    | none =>
      have h0 := hsince l 0
      simp only [decide_true] at h0
      simp [gaps, gapsFrom, ends, h0, Nat.add_comm]
    | some held => simpa [gaps, gapsFrom] using ih

theorem gaps_eq_zero : gaps false l = 0 ↔ none ∉ l := by
  rw [gaps_eq_length]
  constructor
  · intro h hmem
    rw [if_pos hmem] at h
    omega
  · intro h
    rw [if_neg h, gapLengths, gapsFrom_of_held _ h, List.length_nil]

/-! ### What any plan costs -/

/-- Some of `gaps` pay `cost` at most, and with `runs` of missing blocks more they are as many
as all of them. -/
def Paid (gaps : List ℕ) (paid cost runs : ℕ) : Prop :=
  ∃ whole ≤ (gaps : Multiset ℕ), whole.sum + paid ≤ cost ∧ gaps.length ≤ whole.card + runs

theorem Paid.mono {gaps : List ℕ} {paid cost runs paid' cost' runs' : ℕ} (h : Paid gaps paid cost runs)
    (hcost : cost + paid' ≤ cost' + paid) (hruns : runs ≤ runs') : Paid gaps paid' cost' runs' := by
  obtain ⟨whole, hle, hsum, hcard⟩ := h
  exact ⟨whole, hle, by omega, by omega⟩

theorem Paid.whole {gaps : List ℕ} {paid cost runs : ℕ} (n : ℕ) (h : Paid gaps paid cost runs) :
    Paid (ends (some n) ++ gaps) paid (n + cost) runs := by
  obtain ⟨whole, hle, hsum, hcard⟩ := h
  cases n with
  | zero => exact ⟨whole, hle, by omega, hcard⟩
  | succ n => exact ⟨(n + 1) ::ₘ whole, Multiset.cons_le_cons _ hle, by simp; omega, by simp [ends]; omega⟩

theorem Paid.apart {gaps : List ℕ} {paid cost runs : ℕ} (n : ℕ) (h : Paid gaps paid cost runs) :
    Paid (ends (some n) ++ gaps) paid cost (runs + 1) := by
  obtain ⟨whole, hle, hsum, hcard⟩ := h
  cases n with
  | zero => exact ⟨whole, hle, hsum, by simp [ends]; omega⟩
  | succ n => exact ⟨whole, hle.trans (Multiset.le_cons_self _ _), hsum, by simp [ends]; omega⟩

/-- What is given up behind `n` held blocks, by whether all of these are given up, the last of
them is not, or the last is and another is not. -/
theorem GivenUp.costFrom (h : Index.GivenUp l m) (n : ℕ) :
    Paid (gapsFrom (some n) l) (m.countP Option.isSome) (n + l.countP Option.isSome) (gaps true m) ∧
      Paid (gapsFrom (some n) l) (m.countP Option.isSome) (l.countP Option.isSome) (gaps false m) ∧
      Paid (gapsFrom (some n) l) (m.countP Option.isSome) (l.countP Option.isSome) (gaps true m + 1) := by
  induction h generalizing n with
  | nil =>
    have hnil : ∀ {cost runs : ℕ}, Paid [] 0 cost runs := ⟨0, le_rfl, Nat.zero_le _, Nat.zero_le _⟩
    exact ⟨hnil, hnil, hnil⟩
  | @cons slot slot' l m hslot _ ih =>
    cases slot with
    | none =>
      -- A gap of `n` blocks ends here. It is given up whole, or it is the one that no run was saved at.
      obtain rfl : slot' = none := hslot.elim id id
      have hwhole := (ih 0).1
      rw [Nat.zero_add] at hwhole
      refine ⟨(hwhole.whole n).mono ?_ ?_, (hwhole.apart n).mono ?_ ?_, (hwhole.apart n).mono ?_ ?_⟩ <;> (simp [gaps]; try omega)
    | some held =>
      obtain ⟨hwhole, hlast, hcut⟩ := ih (n + 1)
      rcases hslot with rfl | rfl
      · refine ⟨hlast.mono ?_ ?_, hlast.mono ?_ ?_, hlast.mono ?_ ?_⟩ <;> simp [gaps] <;> omega
      · refine ⟨hwhole.mono ?_ ?_, hcut.mono ?_ ?_, hcut.mono ?_ ?_⟩ <;> simp [gaps] <;> omega

/-- Any way of giving blocks up gives some gaps up whole, at their cost at least, and is left
with a run more than there are other gaps. -/
theorem GivenUp.cost (h : Index.GivenUp l m) (hmissing : none ∈ l) (missing : Bool) :
    ∃ runs, runs + 1 = gaps missing m + (if missing then 1 else 0) ∧
      Paid (gapLengths l) (m.countP Option.isSome) (l.countP Option.isSome) runs := by
  unfold gapLengths
  induction h generalizing missing with
  | nil => cases hmissing
  | @cons slot slot' l m hslot hrest ih =>
    cases slot with
    | none =>
      obtain rfl : slot' = none := hslot.elim id id
      have hwhole := (GivenUp.costFrom hrest 0).1
      rw [Nat.zero_add] at hwhole
      refine ⟨gaps true m, ?_, hwhole.mono (by simp) le_rfl⟩
      cases missing <;> simp [gaps, Nat.add_comm]
    | some held =>
      have hin : none ∈ l := (List.mem_cons.mp hmissing).resolve_left (fun he => by cases he)
      rcases hslot with rfl | rfl
      · obtain ⟨runs, hruns, hpaid⟩ := ih hin false
        cases missing
        · exact ⟨runs, hruns, hpaid.mono (by simp; omega) le_rfl⟩
        · exact ⟨runs + 1, congrArg (· + 1) hruns, hpaid.mono (by simp; omega) (Nat.le_succ runs)⟩
      · obtain ⟨runs, hruns, hpaid⟩ := ih hin true
        refine ⟨runs, ?_, hpaid.mono (by simp) le_rfl⟩
        cases missing <;> simp [gaps] at hruns ⊢ <;> omega

/-! ### The gap a scan settles on -/

/-- A gap of `length` held blocks at `start`, between two missing ones. -/
def InnerGap (slots : List (Option ℕ)) (start length : ℕ) : Prop :=
  ∃ front gap back, slots = front ++ none :: gap ++ none :: back ∧ front.length + 1 = start ∧ gap.length = length ∧
    0 < length ∧ none ∉ gap

theorem InnerGap.append {start length : ℕ} (h : InnerGap slots start length) (more : List (Option ℕ)) :
    InnerGap (slots ++ more) start length := by
  obtain ⟨front, gap, back, rfl, hrest⟩ := h
  exact ⟨front, gap, back ++ more, by simp, hrest⟩

/-- The held blocks before block `n`, as the scan looks back for them. -/
theorem heldBefore_add {k : ℕ} (hn : n ≤ slots.length) (h : heldSince none (slots.take n) = some k) :
    Index.heldBefore slots n + k = n := by
  induction n generalizing k with
  | zero => cases h
  | succ n ih =>
    rw [List.take_succ_eq_append_getElem hn, heldSince_append] at h
    unfold Index.heldBefore
    rw [List.getD_eq_getElem _ _ hn]
    cases hslot : slots[n] with
    | none =>
      rw [hslot] at h
      cases h
      simp
    | some held =>
      rw [hslot] at h
      obtain ⟨k, hk, rfl⟩ := Option.map_eq_some_iff.mp h
      have := ih (by omega) hk
      rw [if_pos (by simp)]
      omega

/-- What the scan holds once it has looked at `seen`: the first of the shortest gaps. -/
structure Shortest (seen : List (Option ℕ)) (scan : Index.Scan) : Prop where
  min : ∀ length ∈ gapLengths seen, scan.gapLength ≤ length
  inner : gapLengths seen ≠ [] → InnerGap seen scan.gapStart scan.gapLength
  first : gapLengths seen = [] → scan.gapLength = 2 ^ 32 - 1

/-- A block that ends no gap. -/
theorem Shortest.keep {seen : List (Option ℕ)} {scan scan' : Index.Scan} (h : Shortest seen scan) {slot : Option ℕ}
    (hgaps : gapLengths (seen ++ [slot]) = gapLengths seen) (hstart : scan'.gapStart = scan.gapStart) (hlength : scan'.gapLength = scan.gapLength) :
    Shortest (seen ++ [slot]) scan' := by
  refine ⟨?_, ?_, ?_⟩ <;> rw [hgaps, hlength]
  · exact h.min
  · rw [hstart]
    exact fun hne => (h.inner hne).append _
  · exact h.first

theorem gapLengths_concat (seen : List (Option ℕ)) (slot : Option ℕ) :
    gapLengths (seen ++ [slot]) = gapLengths seen ++ if slot = none then ends (heldSince none seen) else [] := by
  unfold gapLengths
  rw [gapsFrom_append]
  cases slot <;> simp [gapsFrom]

/-- The step of the scan at a missing block with `k` held ones before it. -/
theorem Shortest.gap {seen : List (Option ℕ)} {scan : Index.Scan} {k runs : ℕ} (h : Shortest seen scan)
    (hk : heldSince none seen = some (k + 1)) (hlen : k + 1 < 2 ^ 32 - 1) (start : ℕ) (hstart : start + (k + 1) = seen.length) :
    Shortest (seen ++ [none]) (if k + 1 < scan.gapLength then ⟨runs, start, k + 1⟩ else ⟨runs, scan.gapStart, scan.gapLength⟩) := by
  have hgaps : gapLengths (seen ++ [none]) = gapLengths seen ++ [k + 1] := by
    rw [gapLengths_concat, if_pos rfl, hk, ends]
  split
  next hlt =>
    refine ⟨fun length hmem => ?_, fun _ => ?_, fun hnil => by simp [hgaps] at hnil⟩
    · rw [hgaps, List.mem_append, List.mem_singleton] at hmem
      exact hmem.elim (fun hold => hlt.le.trans (h.min length hold)) fun he => he.ge
    · obtain ⟨front, gap, rfl, hgap, hheld⟩ := heldSince_split hk
      rw [List.length_append, List.length_cons] at hstart
      exact ⟨front, gap, [], by simp, by simp only; omega, hgap, Nat.succ_pos k, hheld⟩
  next hle =>
    refine ⟨fun length hmem => ?_, fun _ => ?_, fun hnil => by simp [hgaps] at hnil⟩
    · rw [hgaps, List.mem_append, List.mem_singleton] at hmem
      exact hmem.elim (fun hold => h.min length hold) fun he => he ▸ not_lt.mp hle
    · have hne : gapLengths seen ≠ [] := fun hnil => hle (h.first hnil ▸ hlen)
      exact (h.inner hne).append _

/-- The scan settles on a shortest gap, if there is one. -/
theorem scan_shortest (hlen : slots.length < 2 ^ 32) : Shortest slots (Index.scan slots) := by
  suffices ∀ n ≤ slots.length, Shortest (slots.take n) ((List.range n).foldl (Index.scanStep slots) ⟨0, 0, 2 ^ 32 - 1⟩) ∧
      ((List.range n).foldl (Index.scanStep slots) ⟨0, 0, 2 ^ 32 - 1⟩).runs = gaps false (slots.take n) by
    have h := (this _ le_rfl).1
    rwa [List.take_length] at h
  intro n
  induction n with
  | zero => exact fun _ => ⟨⟨nofun, fun h => absurd rfl h, fun _ => rfl⟩, rfl⟩
  | succ n ih =>
    intro hn
    obtain ⟨h, hruns⟩ := ih (by omega)
    rw [List.range_succ, List.foldl_append, List.foldl_cons, List.foldl_nil]
    refine ⟨?_, by rw [scanStep_runs, hruns, gaps_take_succ hn]⟩
    set scan := (List.range n).foldl (Index.scanStep slots) ⟨0, 0, 2 ^ 32 - 1⟩
    rw [List.take_succ_eq_append_getElem hn]
    -- What is before block `n`, as the block before it says.
    have hprev : ∀ m, n = m + 1 → heldSince none (slots.take n) =
        if slots.getD m none = none then some 0 else (heldSince none (slots.take m)).map (· + 1) := by
      rintro m rfl
      rw [List.take_succ_eq_append_getElem (by omega), heldSince_append, List.getD_eq_getElem _ _ (by omega)]
      cases slots[m] <;> simp [heldSince]
    unfold Index.scanStep
    split
    next hskip =>
      refine h.keep ?_ rfl rfl
      rw [gapLengths_concat]
      rcases hskip with hheld | ⟨h0, hmissing⟩
      · rw [List.getD_eq_getElem _ _ hn] at hheld
        rw [if_neg hheld, List.append_nil]
      · rw [hprev (n - 1) (by omega), if_pos hmissing]
        simp [ends]
    next hgap =>
      rw [not_or, not_not, not_and, List.getD_eq_getElem _ _ hn] at hgap
      obtain ⟨hslot, hbefore⟩ := hgap
      rw [hslot]
      by_cases hr : scan.runs = 0
      · simp only [hr, ne_eq, not_true_eq_false, false_and, if_false]
        refine h.keep ?_ rfl rfl
        rw [gapLengths_concat, if_pos rfl, heldSince_eq_none.mpr ⟨rfl, gaps_eq_zero.mp (hruns ▸ hr)⟩]
        simp [ends]
      · have hsome : heldSince none (slots.take n) ≠ none := fun hnone =>
          hr (hruns.trans (gaps_eq_zero.mpr (heldSince_eq_none.mp hnone).2))
        obtain ⟨m, rfl⟩ : ∃ m, n = m + 1 := by
          cases n with
          | zero => exact absurd rfl hsome
          | succ m => exact ⟨m, rfl⟩
        have hheld : ¬ slots.getD m none = none := hbefore (Nat.succ_ne_zero m)
        have hm := hprev m rfl
        rw [if_neg hheld] at hm
        obtain ⟨k, hk⟩ := Option.ne_none_iff_exists'.mp hsome
        obtain ⟨k, -, rfl⟩ := Option.map_eq_some_iff.mp (hm.symm.trans hk)
        have hstart := heldBefore_add (by omega) hk
        have hlength : m + 1 - Index.heldBefore slots (m + 1) = k + 1 := by omega
        have hstep := @Shortest.gap _ _ k (scan.runs + 1) h hk (by omega) (Index.heldBefore slots (m + 1))
          (by rw [List.length_take]; omega)
        simp only [hr, ne_eq, not_false_eq_true, true_and, hlength]
        split <;> rename_i hlt
        · rwa [if_pos hlt] at hstep
        · rwa [if_neg hlt] at hstep

/-! ### The rounds -/

theorem giveUp_append (front gap back : List (Option ℕ)) :
    Index.giveUp (front ++ gap ++ back) front.length gap.length = front ++ List.replicate gap.length none ++ back := by
  unfold Index.giveUp
  rw [List.append_assoc front gap, List.take_left, ← List.drop_drop, List.drop_left, List.drop_left]

theorem InnerGap.giveUp {start length : ℕ} (h : InnerGap slots start length) :
    ∃ front gap back, slots = front ++ none :: gap ++ none :: back ∧ front.length + 1 = start ∧ gap.length = length ∧
      0 < length ∧ none ∉ gap ∧
        Index.giveUp slots start length = front ++ none :: List.replicate length none ++ none :: back := by
  obtain ⟨front, gap, back, rfl, rfl, rfl, hpos, hheld⟩ := h
  refine ⟨front, gap, back, rfl, rfl, rfl, hpos, hheld, ?_⟩
  have hgiven := giveUp_append (front ++ [none]) gap (none :: back)
  rw [List.length_append, List.length_singleton] at hgiven
  simpa using hgiven

/-- Giving up a gap leaves the other gaps. -/
theorem InnerGap.gapLengths {start length : ℕ} (h : InnerGap slots start length) :
    length ∈ gapLengths slots ∧ (gapLengths (Index.giveUp slots start length) : Multiset ℕ) = (gapLengths slots : Multiset ℕ).erase length := by
  obtain ⟨front, gap, back, rfl, -, hlength, hpos, hheld, hgiven⟩ := h.giveUp
  have hends : ends (some length) = [length] := by
    cases length with
    | zero => omega
    | succ k => rfl
  have hbefore : DiskCache.gapLengths (front ++ none :: gap ++ none :: back) =
      (gapsFrom none front ++ ends (heldSince none front)) ++ length :: gapsFrom (some 0) back := by
    unfold DiskCache.gapLengths
    simp [gapsFrom_append, gapsFrom, gapsFrom_of_held _ hheld, heldSince_of_held _ hheld, hlength, hends]
  have hafter : DiskCache.gapLengths (front ++ none :: List.replicate length none ++ none :: back) =
      (gapsFrom none front ++ ends (heldSince none front)) ++ gapsFrom (some 0) back := by
    unfold DiskCache.gapLengths
    simp [gapsFrom_append, gapsFrom, gapsFrom_replicate, ends]
  rw [hgiven, hbefore, hafter]
  refine ⟨List.mem_append_right _ List.mem_cons_self, ?_⟩
  rw [← Multiset.coe_add, ← Multiset.coe_add _ (length :: _), ← Multiset.cons_coe length, Multiset.add_cons, Multiset.erase_cons_head]

/-- A gap given up is as many held blocks fewer. -/
theorem InnerGap.countP {start length : ℕ} (h : InnerGap slots start length) :
    (Index.giveUp slots start length).countP Option.isSome + length = slots.countP Option.isSome := by
  obtain ⟨front, gap, back, rfl, -, hlength, -, hheld, hgiven⟩ := h.giveUp
  have hall : gap.countP Option.isSome = length := by
    rw [← hlength, List.countP_eq_length]
    exact fun slot hmem => Option.isSome_iff_ne_none.mpr fun hnone => hheld (hnone ▸ hmem)
  rw [hgiven]
  simp only [List.countP_append, List.countP_cons, hall, List.countP_replicate]
  simp
  omega

/-- The rounds of the plan: while there are more runs of missing blocks than `maxRuns`, a
shortest of the gaps between them is given up. -/
inductive Rounds (maxRuns : ℕ) : List (Option ℕ) → List (Option ℕ) → Prop
  | done (slots : List (Option ℕ)) (hruns : gaps false slots ≤ maxRuns) : Rounds maxRuns slots slots
  | round (slots slots' : List (Option ℕ)) (start length : ℕ) (hruns : maxRuns < gaps false slots)
      (hgap : InnerGap slots start length) (hshortest : ∀ other ∈ gapLengths slots, length ≤ other)
      (hrest : Rounds maxRuns (Index.giveUp slots start length) slots') : Rounds maxRuns slots slots'

theorem InnerGap.givenUp {start length : ℕ} (h : InnerGap slots start length) :
    Index.GivenUp slots (Index.giveUp slots start length) := by
  obtain ⟨front, gap, back, rfl, rfl, rfl, -⟩ := h
  exact Index.giveUp_givenUp _ (by simp; omega)

theorem GivenUp.countP_le (h : Index.GivenUp l m) : m.countP Option.isSome ≤ l.countP Option.isSome := by
  induction h with
  | nil => exact le_rfl
  | @cons slot slot' l m hslot _ ih =>
    rw [List.countP_cons, List.countP_cons]
    rcases hslot with rfl | rfl
    · exact Nat.add_le_add_right ih _
    · exact Nat.add_le_add ih (Nat.zero_le _)

/-- Block `i` has a missing one before it and a missing one behind it. -/
def Between (slots : List (Option ℕ)) (i : ℕ) : Prop :=
  (∃ j < i, slots.getD j none = none) ∧ ∃ j, i < j ∧ j < slots.length ∧ slots.getD j none = none

theorem InnerGap.getD_giveUp {start length : ℕ} (h : InnerGap slots start length) (i : ℕ) :
    (Index.giveUp slots start length).getD i none = slots.getD i none ∨ start ≤ i ∧ i < start + length := by
  obtain ⟨front, gap, back, rfl, hstart, hlength, -, -, hgiven⟩ := h.giveUp
  rw [hgiven]
  simp only [List.getD_eq_getElem?_getD, List.append_assoc, List.getElem?_append, List.cons_append, List.getElem?_cons,
    List.length_replicate, hlength]
  grind -ring -linarith

/-- The blocks of a gap are between missing ones. -/
theorem InnerGap.between {start length i : ℕ} (h : InnerGap slots start length) (hi : start ≤ i) (hi' : i < start + length) : Between slots i := by
  obtain ⟨front, gap, back, rfl, rfl, rfl, hpos, hheld⟩ := h
  refine ⟨⟨front.length, by omega, ?_⟩, front.length + 1 + gap.length, by omega, by simp; omega, ?_⟩
  · simp [List.getD_eq_getElem?_getD]
  · have hback : (front ++ none :: gap).length = front.length + 1 + gap.length := by simp; omega
    rw [← hback, List.getD_eq_getElem?_getD, List.getElem?_append_right le_rfl, Nat.sub_self]
    rfl

/-- A gap given up puts no block between missing ones that was not. -/
theorem InnerGap.between_giveUp {start length i : ℕ} (h : InnerGap slots start length)
    (hb : Between (Index.giveUp slots start length) i) : Between slots i := by
  obtain ⟨⟨j, hj, hbefore⟩, k, hk, hlen, hbehind⟩ := hb
  constructor
  · rcases h.getD_giveUp j with hsame | ⟨hstart, hend⟩
    · exact ⟨j, hj, hsame ▸ hbefore⟩
    · obtain ⟨⟨j', hj', hmissing⟩, -⟩ := h.between hstart hend
      exact ⟨j', hj'.trans hj, hmissing⟩
  · rcases h.getD_giveUp k with hsame | ⟨hstart, hend⟩
    · exact ⟨k, hk, h.givenUp.length_eq ▸ hlen, hsame ▸ hbehind⟩
    · obtain ⟨-, k', hk', hmissing⟩ := h.between hstart hend
      exact ⟨k', hk.trans hk', hmissing⟩

section Rounds

variable {maxRuns : ℕ} (h : Rounds maxRuns slots slots')

include h

theorem Rounds.gaps_le : gaps false slots' ≤ maxRuns := by
  induction h with
  | done slots hruns => exact hruns
  | round slots slots' start length hruns hgap hshortest hrest ih => exact ih

theorem Rounds.givenUp : Index.GivenUp slots slots' := by
  induction h with
  | done slots hruns => exact Index.GivenUp.refl slots
  | round slots slots' start length hruns hgap hshortest hrest ih =>
    exact hgap.givenUp.trans ih

theorem Rounds.eq_of_le (hruns : gaps false slots ≤ maxRuns) : slots' = slots := by
  induction h with
  | done slots _ => rfl
  | round slots slots' start length hmany _ _ _ _ => exact absurd hruns (not_le.mpr hmany)

/-- The rounds cost no more than any gaps, given up whole, that leave as few. -/
theorem Rounds.cheapest (whole : Multiset ℕ) (hle : whole ≤ (gapLengths slots : Multiset ℕ))
    (hcard : (gapLengths slots).length + 1 ≤ whole.card + maxRuns) :
    slots.countP Option.isSome ≤ slots'.countP Option.isSome + whole.sum := by
  induction h generalizing whole with
  | done slots hruns => exact Nat.le_add_right _ _
  | round slots slots' start length hruns hgap hshortest hrest ih =>
    obtain ⟨hmem, herase⟩ := hgap.gapLengths
    have hcount := hgap.countP
    have hlt : maxRuns < (gapLengths slots).length + 1 := by
      have := gaps_eq_length (l := slots)
      split at this <;> omega
    have hne : whole ≠ 0 := by
      rintro rfl
      rw [Multiset.card_zero] at hcard
      omega
    obtain ⟨rest, hrestle, hrestcard, hsum⟩ := exists_le_erase_cheapest hshortest hle hne
    have hfewer : (gapLengths (Index.giveUp slots start length)).length + 1 = (gapLengths slots).length := by
      rw [← Multiset.coe_card, herase]
      exact Multiset.card_erase_add_one hmem
    have := ih rest (herase ▸ hrestle) (by omega)
    omega

/-- No other way of giving blocks up that leaves as few runs keeps more of them. -/
theorem Rounds.least (hm : Index.GivenUp slots m) (hruns : gaps false m ≤ maxRuns) :
    m.countP Option.isSome ≤ slots'.countP Option.isSome := by
  by_cases hmissing : none ∈ slots
  · obtain ⟨runs, hcount, whole, hle, hsum, hcard⟩ := GivenUp.cost hm hmissing false
    have := h.cheapest whole hle (by simp at hcount; omega)
    omega
  · rw [h.eq_of_le (gaps_eq_zero.mpr hmissing ▸ Nat.zero_le _)]
    exact GivenUp.countP_le hm

/-- Only blocks between missing ones are given up. -/
theorem Rounds.between (i : ℕ) (hi : slots'.getD i none ≠ slots.getD i none) : Between slots i := by
  induction h with
  | done slots _ => exact absurd rfl hi
  | round slots slots' start length _ hgap _ _ ih =>
    by_cases hround : (Index.giveUp slots start length).getD i none = slots.getD i none
    · exact hgap.between_giveUp (ih (hround ▸ hi))
    · obtain ⟨hstart, hend⟩ := (hgap.getD_giveUp i).resolve_left hround
      exact hgap.between hstart hend

end Rounds

/-! ### What is unpinned -/

/-- The entries that are given up from `slots` to `slots'`. -/
def changed (slots slots' : List (Option ℕ)) : List (Option ℕ) :=
  List.zipWith (fun slot slot' => if slot' = slot then none else slot) slots slots'

theorem occurs_changed (h : Index.GivenUp l m) (slot : ℕ) :
    (Index.occurs (changed l m) slot : ℤ) = Index.occurs l slot - Index.occurs m slot := by
  induction h with
  | nil => rfl
  | @cons head head' l m hhead _ ih =>
    unfold changed Index.occurs at *
    rw [List.zipWith_cons_cons, List.count_cons, List.count_cons, List.count_cons]
    rcases hhead with rfl | rfl
    · rw [if_pos rfl]
      push_cast
      rw [ih]
      simp
    · push_cast
      rw [ih]
      cases head <;> simp
      ring

namespace Index

variable {idx idx' : Index} {maxRuns : ℕ} {held : ℤ}

/-- The index with `d slot` pins fewer on each slot, and nothing else of it changed. -/
def lowered (idx : Index) (d : ℕ → ℤ) : Index :=
  { idx with slots := fun slot => { idx.slots slot with pins := (idx.slots slot).pins - d slot } }

theorem lowered_zero (idx : Index) : idx.lowered 0 = idx := by simp [lowered]

theorem lowered_lowered (idx : Index) (d e : ℕ → ℤ) : (idx.lowered d).lowered e = idx.lowered (d + e) := by
  simp [lowered, sub_sub]

/-- Unpinning blocks that were not served takes as many pins off each slot as it has blocks. -/
theorem unpin_eq (idx : Index) (slots : List (Option ℕ)) (hp : ∀ slot, (occurs slots slot : ℤ) ≤ (idx.slots slot).pins) :
    idx.unpin false slots = some (idx.lowered fun slot => occurs slots slot) := by
  induction slots generalizing idx with
  | nil => exact congrArg some (lowered_zero idx).symm
  | cons slot slots ih =>
    cases slot with
    | none =>
      simp only [occurs_none_cons] at hp ⊢
      exact ih idx hp
    | some slot =>
      have hslot := hp slot
      simp only [occurs_some_cons] at hp hslot ⊢
      rw [Pi.single_eq_same] at hslot
      have hone : idx.modify slot (fun entry => { entry with pins := entry.pins - 1, referenced := entry.referenced || false }) =
          idx.lowered (Pi.single (M := fun _ => ℤ) slot 1) := by
        unfold modify lowered
        congr 1
        funext other
        by_cases h : other = slot
        · subst h
          simp
        · simp [h]
      have hrest : ∀ other, (occurs slots other : ℤ) ≤ ((idx.lowered (Pi.single (M := fun _ => ℤ) slot 1)).slots other).pins := fun other => by
        have := hp other
        simp only [lowered]
        omega
      rw [unpin, if_pos (by omega), hone, ih _ hrest, lowered_lowered]
      rfl

theorem lowered_same (idx : Index) (slots : List (Option ℕ)) : (idx.lowered fun slot => occurs (changed slots slots) slot) = idx := by
  have hnone : (fun slot => (occurs (changed slots slots) slot : ℤ)) = 0 := by
    funext slot
    rw [occurs_changed (GivenUp.refl slots), sub_self]
    rfl
  rw [hnone, lowered_zero]

/-- The plan makes its rounds; it returns how many blocks are still held and has taken one pin
off for each entry given up. -/
theorem planRounds_eq {fuel : ℕ} (hlen : slots.length < 2 ^ 32) (hruns : 1 ≤ maxRuns ∨ none ∉ slots)
    (hfuel : slots.countP Option.isSome < fuel) (hp : ∀ slot, (occurs slots slot : ℤ) ≤ (idx.slots slot).pins) :
    ∃ slots', Rounds maxRuns slots slots' ∧ planRounds maxRuns fuel idx slots (slots.countP Option.isSome) =
      some ((slots'.countP Option.isSome : ℤ), slots', idx.lowered fun slot => occurs (changed slots slots') slot) := by
  induction fuel generalizing idx slots with
  | zero => omega
  | succ fuel ih =>
    have hscan := scan_runs slots
    by_cases hle : (scan slots).runs ≤ maxRuns
    · refine ⟨slots, Rounds.done slots (hscan ▸ hle), ?_⟩
      rw [lowered_same]
      simp only [planRounds, if_pos hle]
    · have hcount := gaps_eq_length (l := slots)
      have hone : 1 ≤ maxRuns := hruns.resolve_right fun hnone => hle (by rw [hscan, gaps_eq_zero.mpr hnone]; exact Nat.zero_le _)
      have hne : gapLengths slots ≠ [] := by
        intro hnil
        rw [hnil, List.length_nil] at hcount
        split at hcount <;> omega
      have hgap := (scan_shortest hlen).inner hne
      have hmin := (scan_shortest hlen).min
      set start := (scan slots).gapStart
      set length := (scan slots).gapLength
      have hocc := occurs_giveUp slots start length
      have hheld := hgap.countP
      have hpos : 0 < length := by
        obtain ⟨-, -, -, -, -, -, hpos, -⟩ := hgap
        exact hpos
      have hslice : ∀ slot, (occurs ((slots.drop start).take length) slot : ℤ) ≤ (idx.slots slot).pins := fun slot => by
        have := hp slot
        have := hocc slot
        omega
      obtain ⟨slots', hrest, he⟩ := @ih (giveUp slots start length)
        (idx.lowered fun slot => occurs ((slots.drop start).take length) slot) (hgap.givenUp.length_eq ▸ hlen) (Or.inl hone) (by omega) (fun slot => by
          have := hp slot
          have := hocc slot
          simp only [lowered]
          omega)
      have hround := Rounds.round slots slots' start length (by omega) hgap hmin hrest
      refine ⟨slots', hround, ?_⟩
      have hless : (slots.countP Option.isSome : ℤ) - length = (giveUp slots start length).countP Option.isSome := by omega
      have hsum : ((fun slot => (occurs ((slots.drop start).take length) slot : ℤ)) + fun slot => (occurs (changed (giveUp slots start length) slots') slot : ℤ)) =
          fun slot => (occurs (changed slots slots') slot : ℤ) := by
        funext slot
        rw [Pi.add_apply, occurs_changed hrest.givenUp, occurs_changed hround.givenUp, hocc slot]
        push_cast
        ring
      simp only [planRounds, if_neg hle]
      rw [unpin_eq idx _ hslice]
      show planRounds maxRuns fuel _ (giveUp slots start length) (_ - _) = _
      rw [hless, he, lowered_lowered, hsum]

/-- The plan ends. It gives held blocks up until at most `maxRuns` runs are missing, only
between missing ones, unpins each of them once, a shortest gap a round, and as few of them as
can be; what it returns is how many are left. -/
theorem plan_exact (idx : Index) (slots : List (Option ℕ)) (held : ℤ) (maxRuns : ℕ) (hheld : held = slots.countP Option.isSome)
    (hlen : slots.length < 2 ^ 32) (hruns : 1 ≤ maxRuns ∨ none ∉ slots)
    (hp : ∀ slot, (occurs slots slot : ℤ) ≤ (idx.slots slot).pins) :
    ∃ slots', idx.planRead slots held maxRuns =
        some ((slots'.countP Option.isSome : ℤ), slots', idx.lowered fun slot => occurs (changed slots slots') slot) ∧
      GivenUp slots slots' ∧ gaps false slots' ≤ maxRuns ∧
      (gaps false slots ≤ maxRuns → idx.planRead slots held maxRuns = some (held, slots, idx)) ∧
      (∀ i, slots'.getD i none ≠ slots.getD i none → Between slots i) ∧
      Rounds maxRuns slots slots' ∧
      ∀ other, GivenUp slots other → gaps false other ≤ maxRuns → other.countP Option.isSome ≤ slots'.countP Option.isSome := by
  subst hheld
  have hfuel : slots.countP Option.isSome < slots.length + 1 := Nat.lt_succ_of_le List.countP_le_length
  obtain ⟨slots', hrounds, he⟩ := planRounds_eq hlen hruns hfuel hp
  refine ⟨slots', he, hrounds.givenUp, hrounds.gaps_le, fun hle => ?_, hrounds.between, hrounds, fun _ => hrounds.least⟩
  have hsame := hrounds.eq_of_le hle
  subst hsame
  rw [lowered_same] at he
  exact he

/-- Three runs of missing blocks. -/
def threeRuns : List (Option ℕ) := [some 0, none, some 1, some 2, none, some 3, none]

/-- An index with all pins that blocks of `threeRuns` can have. -/
def pinnedSlots : Index where
  slots _ := { emptySlot with pins := 7 }
  heads _ := none
  ghosts _ := 0
  slotCount := 4
  hashMask := 3
  hand := 0
  ghostMask := 1

theorem plan_exact_threeRuns : (∀ slot, (occurs threeRuns slot : ℤ) ≤ (pinnedSlots.slots slot).pins) ∧
    ∃ slots', pinnedSlots.planRead threeRuns 4 2 =
      some ((slots'.countP Option.isSome : ℤ), slots', pinnedSlots.lowered fun slot => occurs (changed threeRuns slots') slot) ∧
        gaps false slots' ≤ 2 := by
  have hpins : ∀ slot, (occurs threeRuns slot : ℤ) ≤ (pinnedSlots.slots slot).pins := fun slot =>
    Nat.cast_le.mpr (List.count_le_length (l := threeRuns))
  obtain ⟨slots', he, -, hruns, -⟩ := plan_exact pinnedSlots threeRuns 4 2 (by decide) (by decide) (Or.inl (by decide)) hpins
  exact ⟨hpins, slots', he, hruns⟩

end Index

end BlorgFS.DiskCache
