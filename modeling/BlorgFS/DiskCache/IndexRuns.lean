import BlorgFS.DiskCache.IndexLedger

/-! What holds of the disk cache's index in every run: its representation
invariant, and that a pinned slot stays with the key it was pinned for. -/

namespace BlorgFS.DiskCache.World

open Lib

variable {w w' : World}

/-! ### Runs as lists of sections -/

instance (w : World) : DecidablePred w.Allowed
  | .pinHeld _ _ _ => inferInstanceAs (Decidable True)
  | .unpin taken slots _ =>
    inferInstanceAs (Decidable ((taken : Multiset Pin) ≤ w.pinned ∧ taken.map Pin.slot = slots.reduceOption))
  | .planRead client key slots _ maxRuns =>
    inferInstanceAs (Decidable ((pinsOf client key slots : Multiset Pin) ≤ w.pinned ∧
      slots.length < 2 ^ 32 ∧ (1 ≤ maxRuns ∨ none ∉ slots)))
  | .reserve _ => inferInstanceAs (Decidable True)
  | .commit slot _ => inferInstanceAs (Decidable ((w.fills slot).isSome))

/-- One section, if the contract allows it. -/
def next (w : World) (op : Op) : Option World := if w.Allowed op then w.exec op else none

theorem step_of_next {op : Op} (h : w.next op = some w') : system.step w w' := by
  unfold next at h
  split at h
  next ha => exact ⟨op, ha, h⟩
  next => cases h

/-- A cache of two slots, before anything is in it. -/
def twoSlots : World where
  index := (Index.indexInitialize true 2).toOption.get (by decide)
  pinned := 0
  fills _ := none

/-- Two blocks of one file missed twice and so reserved, the first of them written
and then pinned. -/
def heldAndFilling (key : Key) : List Op :=
  let second := { key with block := key.block + 1 }
  [.reserve key, .reserve second, .reserve key, .reserve second, .commit 0 true, .pinHeld 7 key key.block]

theorem twoSlots_reachable : system.Reachable twoSlots :=
  .init ⟨true, 2, rfl, rfl, rfl⟩

/-! ### The representation invariant -/

/-- In every reachable state the chains are finite lists of exactly the slots whose
keys hash to them, no key is chained twice, a fill keeps its slot pinned and out
of `pinHeld`'s answers, and so `find` answers exactly and `unlink` finds its
slot. -/
theorem representation (h : system.Reachable w) :
    (∀ c ≤ w.index.hashMask, ∃ l, Linked w.index.next (w.index.heads c) l ∧ l.Nodup ∧
      ∀ slot, slot ∈ l ↔ slot < w.index.slotCount ∧ (w.index.slots slot).state ≠ .free ∧
        w.index.chainOf (mix (w.index.slots slot).key) = c) ∧
    (∀ i j, w.index.Chained i → w.index.Chained j →
      (w.index.slots i).key = (w.index.slots j).key → i = j) ∧
    (∀ slot < w.index.slotCount, (w.index.slots slot).state = .filling → 1 ≤ (w.index.slots slot).pins) ∧
    (∀ key lastBlock, ∃ slots pinned idx, w.index.pinHeld key lastBlock = some (slots, pinned, idx) ∧
      ∀ slot, some slot ∈ slots → (w.index.slots slot).state ≠ .filling) ∧
    w.index.hand < w.index.slotCount ∧
    (∀ key, ∃ r, w.index.find key (mix key) = some r ∧
      ∀ slot, r = some slot ↔ w.index.Chained slot ∧ (w.index.slots slot).key = key) ∧
    (∀ slot, w.index.Chained slot → ∃ idx, w.index.unlink slot = some idx) ∧
    ∀ op, w.Allowed op → ∃ w', w.exec op = some w' := by
  have hi := reachable_inv h
  refine ⟨fun c hc => ?_, hi.index.distinct, fun slot hlt hs => ?_, fun key lastBlock => ?_, hi.index.hand,
    Index.find_spec hi.index, fun slot hc => ?_, fun op ha => ?_⟩
  · obtain ⟨l, hl, hm⟩ := hi.index.chains c hc
    exact ⟨l, hl, hl.nodup, fun slot => by rw [hm slot, Index.Chained, and_assoc]⟩
  · have hf := (hi.fills slot _).mpr ⟨hlt, hs, rfl⟩
    have hp := hi.pins slot
    rw [hf] at hp
    simp only [Option.isSome_some, if_true] at hp
    omega
  · obtain ⟨slots, pinned, idx, he, _, ha, _⟩ := Index.pinHeld_spec hi.index key lastBlock
    refine ⟨slots, pinned, idx, he, fun slot hs => ?_⟩
    rw [ha.valid_of_mem hs]
    simp
  · obtain ⟨idx, he, _⟩ := Index.unlink_spec hi.index.chains hc fun _ hs => hs.1
    exact ⟨idx, he⟩
  · obtain ⟨w', he, _⟩ := exec_spec hi ha
    exact ⟨w', he⟩

theorem representation_heldAndFilling :
    ∃ w, run next twoSlots (heldAndFilling ⟨1, 2, 3, 4, 0⟩) = some w ∧ (w.index.slots 1).state = .filling ∧
      1 ≤ (w.index.slots 1).pins ∧ w.index.hand < w.index.slotCount := by
  have hsome : (run next twoSlots (heldAndFilling ⟨1, 2, 3, 4, 0⟩)).isSome := by decide +kernel
  obtain ⟨w, hw⟩ := Option.isSome_iff_exists.mp hsome
  have hst : ((run next twoSlots (heldAndFilling ⟨1, 2, 3, 4, 0⟩)).map fun w =>
    ((w.index.slots 1).state, w.index.slotCount)) = some (.filling, 2) := by decide +kernel
  rw [hw, Option.map_some, Option.some.injEq, Prod.mk.injEq] at hst
  have hrep := representation (twoSlots_reachable.run (fun _ _ _ => step_of_next) hw)
  exact ⟨w, hw, hst.1, hrep.2.2.1 1 (by omega) hst.1, hrep.2.2.2.2.1⟩

/-! ### Pinned slots -/

/-- While a pin on it is outstanding a slot is valid, keeps the key it was pinned
for and is not the clock's choice; a reserved slot keeps its key and stays filling
until its commit; and each slot's count of pins is the number outstanding, and one
more while it is filled. Every section the contract allows therefore meets its
assertions, and none of these change under it. -/
theorem pinned_slot_stable (h : system.Reachable w) :
    (∀ p ∈ w.pinned, (w.index.slots p.slot).key = p.key ∧ (w.index.slots p.slot).state = .valid ∧
      w.index.victim.1 ≠ some p.slot) ∧
    (∀ slot key, w.fills slot = some key →
      (w.index.slots slot).key = key ∧ (w.index.slots slot).state = .filling) ∧
    (∀ slot < w.index.slotCount, (w.index.slots slot).pins =
      w.pinsOn slot + if (w.index.slots slot).state = .filling then 1 else 0) ∧
    ∀ op, w.Allowed op → ∃ w', w.exec op = some w' ∧
      (∀ slot, 0 < w.pinsOn slot → (w'.index.slots slot).key = (w.index.slots slot).key ∧
        (w'.index.slots slot).state = .valid) ∧
      (∀ slot key, w.fills slot = some key → (∀ written, op ≠ .commit slot written) →
        (w'.index.slots slot).key = key ∧ (w'.index.slots slot).state = .filling) := by
  have hi := reachable_inv h
  refine ⟨fun p hp => ?_, fun slot key hf => ?_, fun slot hlt => ?_, fun op ha => ?_⟩
  · obtain ⟨_, hst, hk⟩ := hi.pinned p hp
    refine ⟨hk, hst, fun hv => ?_⟩
    have hvic := (Index.victim_spec hi.index.hand).2
    rw [hv] at hvic
    have hpins := hi.pins p.slot
    have hpos := pinsOn_pos_of_mem hp
    rw [hvic.2] at hpins
    split at hpins <;> omega
  · obtain ⟨_, hst, hk⟩ := (hi.fills slot key).mp hf
    exact ⟨hk, hst⟩
  · rw [hi.pins slot]
    by_cases hs : (w.index.slots slot).state = .filling
    · rw [(hi.fills slot _).mpr ⟨hlt, hs, rfl⟩]
      simp [hs]
    · cases hf : w.fills slot with
      | none => simp [hs]
      | some key => exact absurd ((hi.fills slot key).mp hf).2.1 hs
  · obtain ⟨w', he, hi', hkept⟩ := exec_spec hi ha
    refine ⟨w', he, hkept.pinned, fun slot key hf hop => ?_⟩
    obtain ⟨_, hst, hk⟩ := (hi'.fills slot key).mp (hkept.filling slot key hf hop)
    exact ⟨hk, hst⟩

theorem pinned_slot_stable_heldAndFilling :
    ∃ w, run next twoSlots (heldAndFilling ⟨1, 2, 3, 4, 0⟩) = some w ∧ w.pinned = {⟨7, 0, ⟨1, 2, 3, 4, 0⟩⟩} ∧
      (w.index.slots 0).key = ⟨1, 2, 3, 4, 0⟩ ∧ (w.index.slots 0).state = .valid ∧
      (w.index.slots 1).key = ⟨1, 2, 3, 4, 1⟩ ∧ (w.index.slots 1).state = .filling := by
  have hsome : (run next twoSlots (heldAndFilling ⟨1, 2, 3, 4, 0⟩)).isSome := by decide +kernel
  obtain ⟨w, hw⟩ := Option.isSome_iff_exists.mp hsome
  have hst : ((run next twoSlots (heldAndFilling ⟨1, 2, 3, 4, 0⟩)).map fun w => (w.pinned, w.fills 1)) =
      some ({⟨7, 0, ⟨1, 2, 3, 4, 0⟩⟩}, some ⟨1, 2, 3, 4, 1⟩) := by decide +kernel
  rw [hw, Option.map_some, Option.some.injEq, Prod.mk.injEq] at hst
  have hstable := pinned_slot_stable (twoSlots_reachable.run (fun _ _ _ => step_of_next) hw)
  obtain ⟨hk, hs, _⟩ := hstable.1 ⟨7, 0, ⟨1, 2, 3, 4, 0⟩⟩ (by rw [hst.1]; simp)
  obtain ⟨hk', hs'⟩ := hstable.2.1 1 _ hst.2
  exact ⟨w, hw, hst.1, hk, hs, hk', hs'⟩

end BlorgFS.DiskCache.World
