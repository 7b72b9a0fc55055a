import BlorgFS.DiskCache.IndexOps
import BlorgFS.Lib.Transition
import Mathlib.Data.List.ReduceOption
import Mathlib.Data.Multiset.AddSub
import Mathlib.Data.Multiset.Count

/-! Runs of the disk cache's index under its contract. A ledger beside the index
records every pin that was taken and not yet dropped, with the key it was taken
for, and every slot reserved and not yet committed. A client drops only pins it
holds and commits only slots it reserved; nothing else is asked of it, so a run
is any interleaving of any number of clients' lock sections. -/

namespace BlorgFS.DiskCache

open Lib

/-- One pin `client` holds on `slot`, taken for `key`. -/
structure Pin where
  client : ℕ
  slot : ℕ
  key : Key
  deriving DecidableEq

/-- The index and the ledger of what its clients hold of it. -/
structure World where
  index : Index
  pinned : Multiset Pin
  fills : ℕ → Option Key

/-- The pins behind an array of slots for successive blocks from `key` on. -/
def pinsOf (client : ℕ) (key : Key) : List (Option ℕ) → List Pin
  | [] => []
  | none :: slots => pinsOf client { key with block := key.block + 1 } slots
  | some slot :: slots => ⟨client, slot, key⟩ :: pinsOf client { key with block := key.block + 1 } slots

/-- The lock sections a client may run. `unpin` is given the pins it drops. -/
inductive Op where
  | pinHeld (client : ℕ) (key : Key) (lastBlock : ℕ)
  | unpin (taken : List Pin) (slots : List (Option ℕ)) (served : Bool)
  | planRead (client : ℕ) (key : Key) (slots : List (Option ℕ)) (held : ℤ) (maxRuns : ℕ)
  | reserve (key : Key)
  | commit (slot : ℕ) (written : Bool)

namespace World

/-- The index's contract: pins dropped are held, slots committed are reserved, and
a plan without fetches is only asked for a read held whole. -/
def Allowed (w : World) : Op → Prop
  | .pinHeld _ _ _ => True
  | .unpin taken slots _ => (taken : Multiset Pin) ≤ w.pinned ∧ taken.map Pin.slot = slots.reduceOption
  | .planRead client key slots _ maxRuns =>
    (pinsOf client key slots : Multiset Pin) ≤ w.pinned ∧ slots.length < 2 ^ 32 ∧
      (1 ≤ maxRuns ∨ none ∉ slots)
  | .reserve _ => True
  | .commit slot _ => (w.fills slot).isSome

/-- One lock section, with its entry in the ledger. -/
def exec (w : World) : Op → Option World
  | .pinHeld client key lastBlock => do
    let (slots, _, idx) ← w.index.pinHeld key lastBlock
    return { w with index := idx, pinned := w.pinned + pinsOf client key slots }
  | .unpin taken slots served => do
    let idx ← w.index.unpin served slots
    return { w with index := idx, pinned := w.pinned - taken }
  | .planRead client key slots held maxRuns => do
    let (_, slots', idx) ← w.index.planRead slots held maxRuns
    return { w with
      index := idx, pinned := w.pinned - pinsOf client key slots + pinsOf client key slots' }
  | .reserve key => do
    let (_, slot, idx) ← w.index.reserve key
    return { w with
      index := idx
      fills := match slot with
        | some slot => Function.update w.fills slot (some key)
        | none => w.fills }
  | .commit slot written => do
    let idx ← w.index.commit slot written
    return { w with index := idx, fills := Function.update w.fills slot none }

/-- The index from `indexInitialize` on, under its contract. -/
def system : System World where
  init w := ∃ pool slotCount, Index.indexInitialize pool slotCount = .ok w.index ∧
    w.pinned = 0 ∧ w.fills = fun _ => none
  step w w' := ∃ op, w.Allowed op ∧ w.exec op = some w'

/-- How many pins are held on `slot`. -/
def pinsOn (w : World) (slot : ℕ) : ℕ := w.pinned.countP fun p => p.slot = slot

/-- The index agrees with the ledger. -/
structure Inv (w : World) : Prop where
  index : w.index.Inv
  pins : ∀ slot, (w.index.slots slot).pins = w.pinsOn slot + if (w.fills slot).isSome then 1 else 0
  pinned : ∀ p ∈ w.pinned, p.slot < w.index.slotCount ∧ (w.index.slots p.slot).state = .valid ∧
    (w.index.slots p.slot).key = p.key
  fills : ∀ slot key, w.fills slot = some key ↔ slot < w.index.slotCount ∧
    (w.index.slots slot).state = .filling ∧ (w.index.slots slot).key = key

end World

/-! ### Arrays of slots and the pins behind them -/

variable {client : ℕ} {slots slots' : List (Option ℕ)}

theorem pinsOf_map_slot (client : ℕ) (key : Key) (slots : List (Option ℕ)) :
    (pinsOf client key slots).map Pin.slot = slots.reduceOption := by
  induction slots generalizing key with
  | nil => rfl
  | cons slot slots ih => cases slot <;> simp [pinsOf, ih]

/-- Pins taken for an array of slots are on each slot as often as it stands there. -/
theorem countP_of_map_slot {taken : List Pin} (h : taken.map Pin.slot = slots.reduceOption) (slot : ℕ) :
    taken.countP (fun p => p.slot = slot) = Index.occurs slots slot := by
  have hmap : taken.countP (fun p => p.slot = slot) = (taken.map Pin.slot).count slot := by
    rw [List.count, List.countP_map]
    congr 1
  rw [hmap, h]
  clear hmap h
  induction slots with
  | nil => rfl
  | cons s slots ih =>
    cases s with
    | none => simpa using ih
    | some s => simp [Index.occurs, List.count_cons] at ih ⊢; omega

theorem pinsOf_of_givenUp (client : ℕ) (key : Key) (h : Index.GivenUp slots slots') :
    (pinsOf client key slots').Sublist (pinsOf client key slots) := by
  induction h generalizing key with
  | nil => exact List.Sublist.slnil
  | @cons slot slot' _ _ hs _ ih =>
    rcases hs with he | rfl
    · subst he
      cases slot' with
      | none => exact ih _
      | some slot => exact (ih _).cons_cons _
    · cases slot with
      | none => exact ih _
      | some slot => exact (ih _).cons _

theorem answers_of_mem_pinsOf {idx : Index} {p : Pin} : ∀ {slots : List (Option ℕ)} {key : Key},
    idx.AnswersFrom key slots → p ∈ pinsOf client key slots → idx.Answers p.key (some p.slot)
  | none :: _, _, h, hp => answers_of_mem_pinsOf h.2 hp
  | some slot :: _, key, h, hp => by
    rcases List.mem_cons.mp hp with rfl | hp
    · exact h.1
    · exact answers_of_mem_pinsOf h.2 hp

/-- A read held whole misses nothing. -/
theorem scan_runs_of_held (h : none ∉ slots) : (Index.scan slots).runs = 0 := by
  suffices ∀ l : List ℕ, (∀ i ∈ l, i < slots.length) → ∀ scan : Index.Scan,
      l.foldl (Index.scanStep slots) scan = scan by
    rw [Index.scan, this _ (fun i hi => List.mem_range.mp hi)]
  intro l
  induction l with
  | nil => intro _ _; rfl
  | cons i l ih =>
    intro hl scan
    have hi : slots.getD i none ≠ none := by
      rw [List.getD_eq_getElem _ _ (hl i (by simp))]
      intro he
      exact h (he ▸ List.getElem_mem _)
    rw [List.foldl_cons, Index.scanStep, if_pos (Or.inl hi)]
    exact ih (fun j hj => hl j (by simp [hj])) scan

namespace World

variable {w w' : World} {op : Op}

/-! ### What one lock section can do -/

theorem init_inv (h : system.init w) : w.Inv := by
  obtain ⟨pool, slotCount, hi, hp, hf⟩ := h
  unfold Index.indexInitialize at hi
  split at hi
  · cases hi
  split at hi
  · cases hi
  next hcount _ =>
    have hidx := Except.ok.inj hi
    have hslot : ∀ slot, w.index.slots slot = Index.emptySlot := fun slot => by rw [← hidx]
    have hfree : ∀ slot, ¬ w.index.Chained slot := fun slot hc => hc.2 (by rw [hslot]; rfl)
    refine ⟨⟨fun c _ => ⟨[], ?_, fun slot => ?_⟩, fun i _ hc => absurd hc (hfree i), ?_⟩, ?_, ?_, ?_⟩
    · rw [← hidx]
      rfl
    · simp [hfree slot]
    · rw [← hidx]
      show 0 < slotCount
      omega
    · intro slot
      simp [hslot, Index.emptySlot, pinsOn, hp, hf]
    · simp [hp]
    · simp [hf, hslot, Index.emptySlot]

/-- What a step leaves alone: who holds a pinned slot, and every fill but the one
it commits. -/
structure Kept (w w' : World) (op : Op) : Prop where
  pinned : ∀ slot, 0 < w.pinsOn slot → (w'.index.slots slot).key = (w.index.slots slot).key ∧
    (w'.index.slots slot).state = .valid
  filling : ∀ slot key, w.fills slot = some key → (∀ written, op ≠ .commit slot written) →
    w'.fills slot = some key

theorem Inv.pinsOn_pos (h : w.Inv) {slot : ℕ} (hp : 0 < w.pinsOn slot) :
    slot < w.index.slotCount ∧ (w.index.slots slot).state = .valid := by
  obtain ⟨p, hmem, rfl⟩ := Multiset.countP_pos.mp hp
  exact ⟨(h.pinned p hmem).1, (h.pinned p hmem).2.1⟩

theorem pinsOn_pos_of_mem {p : Pin} (hp : p ∈ w.pinned) : 0 < w.pinsOn p.slot :=
  Multiset.countP_pos.mpr ⟨p, hp, rfl⟩

/-- A section that only moves pins, when the ledger moves the same ones. -/
theorem Inv.repin {idx : Index} {d : ℕ → ℤ} (h : w.Inv) (pinned : Multiset Pin)
    (hre : Index.Repinned w.index idx d)
    (hd : ∀ slot, ((pinned.countP fun p => p.slot = slot : ℕ) : ℤ) = w.pinsOn slot + d slot)
    (hp : ∀ p ∈ pinned, p ∈ w.pinned ∨ w.index.Answers p.key (some p.slot)) :
    Inv { w with index := idx, pinned := pinned } ∧
      ∀ op, Kept w { w with index := idx, pinned := pinned } op := by
  refine ⟨⟨hre.inv h.index, fun slot => ?_, fun p hmem => ?_, fun slot key => ?_⟩,
    fun op => ⟨fun slot hs => ?_, fun slot key hf _ => hf⟩⟩
  · have h1 := hre.pins slot
    have h2 := h.pins slot
    have h3 := hd slot
    simp only [pinsOn] at h2 h3 ⊢
    omega
  · simp only [hre.slotCount, hre.state, hre.key]
    rcases hp p hmem with hold | hnew
    · exact h.pinned p hold
    · exact ⟨hnew.1.1, hnew.2.1, hnew.2.2⟩
  · simp only [hre.slotCount, hre.state, hre.key]
    exact h.fills slot key
  · exact ⟨hre.key slot, (hre.state slot).trans (h.pinsOn_pos hs).2⟩

theorem Inv.occurs_le_pins (h : w.Inv) {taken : List Pin} {slots : List (Option ℕ)}
    (ht : (taken : Multiset Pin) ≤ w.pinned) (hs : taken.map Pin.slot = slots.reduceOption) (slot : ℕ) :
    (Index.occurs slots slot : ℤ) ≤ (w.index.slots slot).pins := by
  have hle := Multiset.countP_le_of_le (fun p : Pin => p.slot = slot) ht
  rw [Multiset.coe_countP, countP_of_map_slot hs] at hle
  have hp := h.pins slot
  simp only [pinsOn] at hp
  split at hp <;> omega

theorem pinHeld_exec (h : w.Inv) (client : ℕ) (key : Key) (lastBlock : ℕ) :
    ∃ w', w.exec (.pinHeld client key lastBlock) = some w' ∧ w'.Inv ∧
      w.Kept w' (.pinHeld client key lastBlock) := by
  obtain ⟨slots, pinned, idx, he, _, ha, hre⟩ := Index.pinHeld_spec h.index key lastBlock
  have hi := h.repin (w.pinned + pinsOf client key slots) hre (fun slot => ?_) (fun p hp => ?_)
  · exact ⟨_, by simp [exec, he], hi.1, hi.2 _⟩
  · rw [Multiset.countP_add, Multiset.coe_countP, countP_of_map_slot (pinsOf_map_slot _ _ _)]
    simp [pinsOn]
  · rcases Multiset.mem_add.mp hp with hp | hp
    · exact Or.inl hp
    · exact Or.inr (answers_of_mem_pinsOf ha hp)

theorem unpin_exec (h : w.Inv) {taken : List Pin} {slots : List (Option ℕ)} (served : Bool)
    (ha : w.Allowed (.unpin taken slots served)) :
    ∃ w', w.exec (.unpin taken slots served) = some w' ∧ w'.Inv ∧
      w.Kept w' (.unpin taken slots served) := by
  obtain ⟨hle, hmap⟩ := ha
  obtain ⟨idx, he, hre⟩ := Index.unpin_spec w.index served slots (h.occurs_le_pins hle hmap)
  have hi := h.repin (w.pinned - taken) hre (fun slot => ?_) (fun p hp => ?_)
  · exact ⟨_, by simp [exec, he], hi.1, hi.2 _⟩
  · have hsub := Multiset.countP_sub hle (fun p => p.slot = slot)
    have hcount := Multiset.countP_le_of_le (fun p : Pin => p.slot = slot) hle
    rw [Multiset.coe_countP, countP_of_map_slot hmap] at hsub hcount
    simp only [pinsOn]
    omega
  · exact Or.inl (Multiset.mem_of_le (Multiset.sub_le_self _ _) hp)

theorem planRead_exec (h : w.Inv) {client : ℕ} {key : Key} {slots : List (Option ℕ)} (held : ℤ) {maxRuns : ℕ}
    (ha : w.Allowed (.planRead client key slots held maxRuns)) :
    ∃ w', w.exec (.planRead client key slots held maxRuns) = some w' ∧ w'.Inv ∧
      w.Kept w' (.planRead client key slots held maxRuns) := by
  obtain ⟨hle, hlen, hruns⟩ := ha
  have hmap := pinsOf_map_slot client key slots
  obtain ⟨held', slots', idx, he, hgu, _, hre⟩ := Index.planRead_spec slots held maxRuns hlen
    (hruns.imp_right scan_runs_of_held) (h.occurs_le_pins hle hmap)
  have hsub : (pinsOf client key slots' : Multiset Pin) ≤ pinsOf client key slots :=
    Multiset.coe_le.mpr (pinsOf_of_givenUp client key hgu).subperm
  have hi := h.repin (w.pinned - pinsOf client key slots + pinsOf client key slots') hre
    (fun slot => ?_) (fun p hp => ?_)
  · exact ⟨_, by simp [exec, he], hi.1, hi.2 _⟩
  · have hdiff := Multiset.countP_sub hle (fun p => p.slot = slot)
    have hcount := Multiset.countP_le_of_le (fun p : Pin => p.slot = slot) hle
    rw [Multiset.coe_countP, countP_of_map_slot hmap] at hdiff hcount
    rw [Multiset.countP_add, hdiff, Multiset.coe_countP, countP_of_map_slot (pinsOf_map_slot _ _ _)]
    simp only [pinsOn]
    omega
  · rcases Multiset.mem_add.mp hp with hp | hp
    · exact Or.inl (Multiset.mem_of_le (Multiset.sub_le_self _ _) hp)
    · exact Or.inl (Multiset.mem_of_le hle (Multiset.mem_of_le hsub hp))

theorem reserve_exec (h : w.Inv) (key : Key) :
    ∃ w', w.exec (.reserve key) = some w' ∧ w'.Inv ∧ w.Kept w' (.reserve key) := by
  obtain ⟨answer, slot, idx, he, hinv, hcase⟩ := Index.reserve_spec h.index key
  rcases hcase with ⟨_, rfl, hre⟩ | ⟨s, _, rfl, ht, _⟩
  · have hi := h.repin w.pinned hre (fun slot => by simp [pinsOn]) (fun p hp => Or.inl hp)
    exact ⟨_, by simp [exec, he], hi.1, hi.2 _⟩
  · -- The victim had no pin, so neither a pin nor a fill of the ledger was on it.
    have hpins := h.pins s
    rw [ht.unpinned] at hpins
    have hnone : w.pinsOn s = 0 := by split at hpins <;> omega
    have hidle : w.fills s = none := by
      cases hf : w.fills s with
      | none => rfl
      | some k => rw [hf] at hpins; simp at hpins; omega
    have hne : ∀ slot, 0 < w.pinsOn slot → slot ≠ s := by
      rintro slot hs rfl
      omega
    refine ⟨_, by simp only [exec, he, Option.bind_eq_bind, Option.bind_some]; rfl,
      ⟨hinv, fun slot => ?_, fun p hp => ?_, fun slot k => ?_⟩, fun slot hs => ?_, fun slot k hf _ => ?_⟩
    · by_cases hs : slot = s
      · subst hs
        have h0 : w.pinned.countP (fun p => p.slot = slot) = 0 := hnone
        simp [pinsOn, ht.pins, h0]
      · have hold := h.pins slot
        simp only [pinsOn] at hold ⊢
        rw [(ht.others slot hs).2.2, hold]
        simp [hs]
    · have hs := hne p.slot (pinsOn_pos_of_mem hp)
      obtain ⟨hk, hst, _⟩ := ht.others p.slot hs
      simp only [ht.slotCount, hk, hst]
      exact h.pinned p hp
    · by_cases hs : slot = s
      · subst hs
        simp [ht.slotCount, ht.lt, ht.state, ht.key]
      · obtain ⟨hk, hst, _⟩ := ht.others slot hs
        simp only [Function.update_of_ne hs, ht.slotCount, hk, hst]
        exact h.fills slot k
    · obtain ⟨hk, hst, _⟩ := ht.others slot (hne slot hs)
      exact ⟨hk, hst.trans (h.pinsOn_pos hs).2⟩
    · have hs : slot ≠ s := by
        rintro rfl
        rw [hidle] at hf
        cases hf
      simp [hs, hf]

theorem commit_exec (h : w.Inv) {slot : ℕ} (written : Bool) (ha : w.Allowed (.commit slot written)) :
    ∃ w', w.exec (.commit slot written) = some w' ∧ w'.Inv ∧ w.Kept w' (.commit slot written) := by
  obtain ⟨key, hf⟩ := Option.isSome_iff_exists.mp ha
  obtain ⟨hlt, hst, hk⟩ := (h.fills slot key).mp hf
  have hpins := h.pins slot
  rw [hf] at hpins
  simp only [Option.isSome_some, if_true] at hpins
  -- A filling slot is not valid, so the fill's is the only pin on it.
  have hne : ∀ other, 0 < w.pinsOn other → other ≠ slot := by
    rintro other ho rfl
    have := (h.pinsOn_pos ho).2
    rw [hst] at this
    cases this
  have hzero : w.pinsOn slot = 0 := by
    by_contra hpos
    exact hne slot (Nat.pos_of_ne_zero hpos) rfl
  obtain ⟨idx, he, hinv, hc⟩ := Index.commit_spec written h.index hlt hst (by omega)
  refine ⟨_, by simp [exec, he]; rfl, ⟨hinv, fun other => ?_, fun p hp => ?_, fun other k => ?_⟩,
    fun other ho => ?_, fun other k hfo hop => ?_⟩
  · by_cases ho : other = slot
    · subst ho
      have h0 : w.pinned.countP (fun p => p.slot = other) = 0 := hzero
      simp only [pinsOn, hc.pins, h0, Function.update_self]
      simp
      omega
    · have hold := h.pins other
      simp only [pinsOn] at hold ⊢
      rw [(hc.others other ho).2, hold]
      simp [ho]
  · obtain ⟨hso, _⟩ := hc.others p.slot (hne p.slot (pinsOn_pos_of_mem hp))
    simp only [hc.slotCount, hc.key, hso]
    exact h.pinned p hp
  · by_cases ho : other = slot
    · subst ho
      simp only [Function.update_self, hc.state]
      cases written <;> simp
    · obtain ⟨hso, _⟩ := hc.others other ho
      simp only [Function.update_of_ne ho, hc.slotCount, hc.key, hso]
      exact h.fills other k
  · obtain ⟨hso, _⟩ := hc.others other (hne other ho)
    exact ⟨hc.key other, hso.trans (h.pinsOn_pos ho).2⟩
  · have ho : other ≠ slot := by
      rintro rfl
      exact hop written rfl
    simp [ho, hfo]

/-- Every section the contract allows ends, meets no assertion and keeps the
invariant. -/
theorem exec_spec (h : w.Inv) (ha : w.Allowed op) : ∃ w', w.exec op = some w' ∧ w'.Inv ∧ w.Kept w' op := by
  cases op with
  | pinHeld client key lastBlock => exact pinHeld_exec h client key lastBlock
  | unpin taken slots served => exact unpin_exec h served ha
  | planRead client key slots held maxRuns => exact planRead_exec h held ha
  | reserve key => exact reserve_exec h key
  | commit slot written => exact commit_exec h written ha

theorem reachable_inv (h : system.Reachable w) : w.Inv := by
  refine System.invariant (fun _ => init_inv) (fun w w' _ hi hs => ?_) h
  obtain ⟨op, ha, he⟩ := hs
  obtain ⟨w'', he', hi', _⟩ := exec_spec hi ha
  obtain rfl : w'' = w' := Option.some.inj (he'.symm.trans he)
  exact hi'

end World

end BlorgFS.DiskCache
