import BlorgFS.Read.Fair
import BlorgFS.Lib.Tally
import Mathlib.Algebra.Order.BigOperators.Group.Finset
import Mathlib.Algebra.Order.Ring.Nat

/-! What the fair share's counters count: the bytes, the fetches of each file and the
fetches in all of the reads admitted and not settled, and what those reserved beside.
Each section keeps the account, and none goes below zero. -/

namespace BlorgFS.Read

open Finset

/-- The first `n` reads that are admitted and not settled. -/
def Fair.admittedReads (f : Fair) (n : ℕ) : Finset ℕ := {i ∈ range n | (f.irps i).admitted = true}

structure Account (V : Setup) (f : Fair) (n : ℕ) : Prop where
  bytes : f.inFlightBytes = ∑ i ∈ f.admittedReads n, (V.request i).length
  nodes : ∀ node, (f.nodes node).readFetchesInFlight = #{i ∈ f.admittedReads n | (V.request i).node = node}
  fetches : f.inFlightFetches + ∑ i ∈ range n, f.givenBack i = #(f.admittedReads n) + ∑ i ∈ range n, f.reserved i
  limit : f.inFlightFetches ≤ maxFetches
  lent : ∀ i, f.givenBack i ≤ f.reserved i
  underflow : f.underflow = false

variable {V : Setup} {f f' : Fair} {n i : ℕ}

theorem Fair.mem_admittedReads : i ∈ f.admittedReads n ↔ i < n ∧ (f.irps i).admitted = true := by
  simp [Fair.admittedReads]

/-- A section that moves no flag, charges nothing and lends nothing. -/
theorem Account.congr (h : Account V f n) (hb : f'.inFlightBytes = f.inFlightBytes)
    (hf : f'.inFlightFetches = f.inFlightFetches)
    (hn : ∀ node, (f'.nodes node).readFetchesInFlight = (f.nodes node).readFetchesInFlight)
    (ha : ∀ i, (f'.irps i).admitted = (f.irps i).admitted) (hr : f'.reserved = f.reserved)
    (hg : f'.givenBack = f.givenBack) (hu : f'.underflow = f.underflow) : Account V f' n := by
  have hreads : f'.admittedReads n = f.admittedReads n := by
    ext i
    rw [Fair.mem_admittedReads, Fair.mem_admittedReads, ha]
  refine ⟨by rw [hb, hreads]; exact h.bytes, fun node => by rw [hn, hreads]; exact h.nodes node, ?_,
    by rw [hf]; exact h.limit, by rw [hr, hg]; exact h.lent, by rw [hu]; exact h.underflow⟩
  rw [hf, hreads, hr, hg]
  exact h.fetches

theorem Account.card_le (h : Account V f n) : #(f.admittedReads n) ≤ f.inFlightFetches := by
  have hfetches := h.fetches
  have hlent : ∑ i ∈ range n, f.givenBack i ≤ ∑ i ∈ range n, f.reserved i := sum_le_sum fun i _ => h.lent i
  omega

theorem Account.bytes_le (h : Account V f n) : f.inFlightBytes ≤ 2 ^ 32 * f.inFlightFetches := by
  rw [h.bytes]
  calc ∑ i ∈ f.admittedReads n, (V.request i).length ≤ ∑ _i ∈ f.admittedReads n, 2 ^ 32 :=
        sum_le_sum fun i _ => (V.request i).length_lt.le
    _ = #(f.admittedReads n) * 2 ^ 32 := sum_const_nat fun _ _ => rfl
    _ ≤ 2 ^ 32 * f.inFlightFetches := by
      have := h.card_le
      omega

theorem Account.nodes_le (h : Account V f n) (node : ℕ) :
    (f.nodes node).readFetchesInFlight ≤ f.inFlightFetches := by
  rw [h.nodes]
  exact (card_le_card (filter_subset _ _)).trans h.card_le

/-- Admitting a read counts it once everywhere. -/
theorem Account.charge (h : Account V f n) (hi : i < n) (ha : (f.irps i).admitted = false)
    (hroom : f.inFlightFetches < maxFetches) : Account V (f.charge V i) n := by
  have hreads : (f.charge V i).admittedReads n = insert i (f.admittedReads n) := by
    ext j
    rw [Fair.mem_admittedReads, mem_insert, Fair.mem_admittedReads]
    by_cases hj : j = i
    · subst hj
      simp [Fair.charge, hi]
    · simp [Fair.charge, hj]
  have hnot : i ∉ f.admittedReads n := by
    rw [Fair.mem_admittedReads, ha]
    simp
  have hbytes := h.bytes_le
  have hlen := (V.request i).length_lt
  unfold maxFetches at hroom
  refine ⟨?_, fun node => ?_, ?_, ?_, h.lent, h.underflow⟩
  · rw [hreads, sum_insert hnot, ← h.bytes]
    show (f.inFlightBytes + (V.request i).length) % 2 ^ 64 = _
    rw [Nat.mod_eq_of_lt (by omega), Nat.add_comm]
  · rw [hreads, filter_insert]
    have hle := h.nodes_le node
    have hold := h.nodes node
    by_cases hn : (V.request i).node = node
    · subst hn
      rw [if_pos rfl, card_insert_of_notMem fun hm => hnot (mem_filter.mp hm).1, ← hold]
      simp only [Fair.charge, Function.update_self]
      rw [Nat.mod_eq_of_lt (by omega)]
    · rw [if_neg hn, ← hold]
      simp only [Fair.charge, Function.update_of_ne (Ne.symm hn)]
  · have hfetches := h.fetches
    rw [hreads, card_insert_of_notMem hnot]
    show (f.inFlightFetches + 1) % 2 ^ 32 + ∑ i ∈ range n, f.givenBack i = _ + ∑ i ∈ range n, f.reserved i
    rw [Nat.mod_eq_of_lt (by omega)]
    omega
  · show (f.inFlightFetches + 1) % 2 ^ 32 ≤ 32
    rw [Nat.mod_eq_of_lt (by omega)]
    omega

theorem wrapSub_of_le {w a b : ℕ} (h : b ≤ a) : wrapSub w a b = a - b := if_pos h

/-- Settling a read takes back what its admission counted. -/
theorem Account.uncharge (h : Account V f n) (hi : i < n) (ha : (f.irps i).admitted = true) :
    Account V (f.uncharge V i) n := by
  have hreads : (f.uncharge V i).admittedReads n = (f.admittedReads n).erase i := by
    ext j
    rw [Fair.mem_admittedReads, mem_erase, Fair.mem_admittedReads]
    by_cases hj : j = i
    · subst hj
      simp [Fair.uncharge]
    · simp [Fair.uncharge, hj]
  have hmem : i ∈ f.admittedReads n := Fair.mem_admittedReads.mpr ⟨hi, ha⟩
  have hsum := add_sum_erase (f.admittedReads n) (fun i => (V.request i).length) hmem
  have hcard := card_erase_add_one hmem
  have hle := h.card_le
  have hnode : i ∈ {j ∈ f.admittedReads n | (V.request j).node = (V.request i).node} := mem_filter.mpr ⟨hmem, rfl⟩
  have hpos : 1 ≤ (f.nodes (V.request i).node).readFetchesInFlight := by
    rw [h.nodes]
    exact card_pos.mpr ⟨i, hnode⟩
  have hlen : (V.request i).length ≤ f.inFlightBytes := by
    rw [h.bytes]
    omega
  refine ⟨?_, fun node => ?_, ?_, ?_, h.lent, ?_⟩
  · rw [hreads]
    show wrapSub 64 f.inFlightBytes (V.request i).length = _
    rw [wrapSub_of_le hlen, h.bytes]
    omega
  · rw [hreads, filter_erase]
    have hold := h.nodes node
    by_cases hn : (V.request i).node = node
    · subst hn
      simp only [Fair.uncharge, Function.update_self]
      rw [wrapSub_of_le hpos, card_erase_of_mem hnode, hold]
    · have hout : i ∉ {j ∈ f.admittedReads n | (V.request j).node = node} := fun hm => hn (mem_filter.mp hm).2
      rw [erase_eq_of_notMem hout, ← hold]
      simp only [Fair.uncharge, Function.update_of_ne (Ne.symm hn)]
  · have hfetches := h.fetches
    rw [hreads]
    show wrapSub 32 f.inFlightFetches 1 + ∑ i ∈ range n, f.givenBack i = _ + ∑ i ∈ range n, f.reserved i
    rw [wrapSub_of_le (by omega)]
    omega
  · have hlimit := h.limit
    show wrapSub 32 f.inFlightFetches 1 ≤ maxFetches
    rw [wrapSub_of_le (by omega)]
    omega
  · simp only [Fair.uncharge, h.underflow, Bool.false_or, Bool.or_eq_false_iff, decide_eq_false_iff_not]
    omega

theorem sum_update_add (v : ℕ → ℕ) (hi : i < n) (d : ℕ) :
    ∑ j ∈ range n, Function.update v i (v i + d) j = ∑ j ∈ range n, v j + d := by
  have h := Lib.sum_range_update hi v (v i + d) fun _ x => x
  omega

theorem Account.reserve (h : Account V f n) (hi : i < n) (fetches : ℕ) :
    Account V (f.reserve i fetches).1 n := by
  have hlimit := h.limit
  have hfetches := h.fetches
  unfold maxFetches at hlimit
  have hroom : f.inFlightFetches + (f.reserve i fetches).2 ≤ 32 := by
    have hle : (f.reserve i fetches).2 ≤ if f.inFlightFetches < maxFetches then maxFetches - f.inFlightFetches else 0 :=
      Nat.min_le_right _ _
    unfold maxFetches at hle
    split at hle <;> omega
  have hnew : (f.inFlightFetches + (f.reserve i fetches).2) % 2 ^ 32 = f.inFlightFetches + (f.reserve i fetches).2 :=
    Nat.mod_eq_of_lt (by omega)
  refine ⟨h.bytes, h.nodes, ?_, ?_, fun j => ?_, h.underflow⟩
  · show (f.inFlightFetches + (f.reserve i fetches).2) % 2 ^ 32 + ∑ i ∈ range n, f.givenBack i =
      #(f.admittedReads n) + ∑ j ∈ range n, Function.update f.reserved i (f.reserved i + (f.reserve i fetches).2) j
    rw [hnew, sum_update_add f.reserved hi]
    omega
  · show (f.inFlightFetches + (f.reserve i fetches).2) % 2 ^ 32 ≤ maxFetches
    rw [hnew]
    exact hroom
  · have hlent := h.lent j
    by_cases hj : j = i
    · subst hj
      show f.givenBack j ≤ Function.update f.reserved j (f.reserved j + (f.reserve j fetches).2) j
      rw [Function.update_self]
      omega
    · simp only [Fair.reserve, Function.update_of_ne hj]
      exact hlent

theorem Account.restore (h : Account V f n) (hi : i < n) {fetches : ℕ} (hle : f.givenBack i + fetches ≤ f.reserved i) :
    Account V (f.restore i fetches) n := by
  have hfetches := h.fetches
  have hlimit := h.limit
  have hsum : ∑ j ∈ range n, f.givenBack j + fetches ≤ ∑ j ∈ range n, f.reserved j := by
    rw [← sum_update_add f.givenBack hi]
    apply sum_le_sum
    intro j _
    by_cases hj : j = i
    · subst hj
      rw [Function.update_self]
      exact hle
    · rw [Function.update_of_ne hj]
      exact h.lent j
  refine ⟨h.bytes, h.nodes, ?_, ?_, fun j => ?_, ?_⟩
  · show wrapSub 32 f.inFlightFetches fetches + ∑ j ∈ range n, Function.update f.givenBack i (f.givenBack i + fetches) j =
      #(f.admittedReads n) + ∑ i ∈ range n, f.reserved i
    rw [wrapSub_of_le (by omega), sum_update_add f.givenBack hi]
    omega
  · show wrapSub 32 f.inFlightFetches fetches ≤ maxFetches
    rw [wrapSub_of_le (by omega)]
    omega
  · by_cases hj : j = i
    · subst hj
      simp only [Fair.restore, Function.update_self]
      exact hle
    · simp only [Fair.restore, Function.update_of_ne hj]
      exact h.lent j
  · simp only [Fair.restore, h.underflow, Bool.false_or, decide_eq_false_iff_not]
    omega

end BlorgFS.Read
