import BlorgFS.DiskCache.IndexOps
import Mathlib.Data.List.Find
import Mathlib.Data.Nat.ModEq

/-! Which slot the clock gives up, `DiskCacheIndexVictim`. The slots it may look at are
distinct, so what it finds at one of them is what was there when it started, and the sweep
is a search of a list. -/

namespace BlorgFS.DiskCache.Index

variable {idx idx' : Index} {n : ℕ}

/-! ### The slots in reach -/

/-- The slot `k` slots on from the hand. -/
def fromHand (idx : Index) (k : ℕ) : ℕ := (idx.hand + k) % idx.slotCount

def sweep (idx : Index) (n : ℕ) : List ℕ := (List.range n).map idx.fromHand

/-- The slots the hand may look at for one victim, in the order it comes by them. -/
def inReach (idx : Index) : List ℕ := idx.sweep (min idx.slotCount clockReach)

def Unpinned (idx : Index) (slot : ℕ) : Prop := (idx.slots slot).pins = 0

/-- In use, and served since the hand last came by. -/
def Marked (idx : Index) (slot : ℕ) : Prop := (idx.slots slot).state ≠ .free ∧ (idx.slots slot).referenced = true

/-- Given up when the hand comes by it. -/
def Ripe (idx : Index) (slot : ℕ) : Prop := idx.Unpinned slot ∧ ¬ idx.Marked slot

instance (idx : Index) (slot : ℕ) : Decidable (idx.Unpinned slot) := inferInstanceAs (Decidable (_ = _))
instance (idx : Index) (slot : ℕ) : Decidable (idx.Marked slot) := inferInstanceAs (Decidable (_ ∧ _))
instance (idx : Index) (slot : ℕ) : Decidable (idx.Ripe slot) := inferInstanceAs (Decidable (_ ∧ _))

/-- The slots of a sweep the hand goes past. -/
def passedOf (idx : Index) (slots : List ℕ) : List ℕ := slots.takeWhile fun slot => ¬ idx.Ripe slot

/-- How many slots of a sweep are looked at: those passed, and the one that is ripe. -/
def lookedOf (idx : Index) (slots : List ℕ) : ℕ := (idx.passedOf slots).length + if ∃ slot ∈ slots, idx.Ripe slot then 1 else 0

/-- The index with the marks of `slots` gone, where they are not pinned, and the hand moved. -/
def swept (idx : Index) (slots : List ℕ) (hand : ℕ) : Index :=
  { idx with
    slots := fun slot =>
      if slot ∈ slots ∧ idx.Unpinned slot ∧ idx.Marked slot then { idx.slots slot with referenced := false } else idx.slots slot
    hand := hand }

/-- Where the hand goes from one slot. -/
def onward (idx : Index) : Index := { idx with hand := if idx.hand + 1 = idx.slotCount then 0 else idx.hand + 1 }

theorem onward_hand (k : ℕ) : (idx.onward.hand + k) % idx.slotCount = (idx.hand + (k + 1)) % idx.slotCount := by
  show ((if idx.hand + 1 = idx.slotCount then 0 else idx.hand + 1) + k) % idx.slotCount = _
  split
  next h => rw [Nat.zero_add, ← Nat.add_assoc, Nat.add_right_comm, h, Nat.add_mod_left]
  next h => rw [Nat.add_assoc, Nat.add_comm 1 k]

theorem sweep_succ (hhand : idx.hand < idx.slotCount) : idx.sweep (n + 1) = idx.hand :: idx.onward.sweep n := by
  unfold sweep fromHand
  rw [List.range_succ_eq_map, List.map_cons, List.map_map, Nat.add_zero, Nat.mod_eq_of_lt hhand]
  congr 1
  exact List.map_congr_left fun k _ => (onward_hand k).symm

theorem sweep_nodup (hn : n ≤ idx.slotCount) : (idx.sweep n).Nodup := by
  refine List.Nodup.map_on (fun i hi j hj he => ?_) List.nodup_range
  rw [List.mem_range] at hi hj
  have hmod : i % idx.slotCount = j % idx.slotCount := Nat.ModEq.add_left_cancel' idx.hand he
  rwa [Nat.mod_eq_of_lt (by omega), Nat.mod_eq_of_lt (by omega)] at hmod

/-! ### The sweep -/

theorem lookedOf_nil : idx.lookedOf [] = 0 := by simp [lookedOf, passedOf]

theorem passedOf_cons_of_ripe {slot : ℕ} (rest : List ℕ) (h : idx.Ripe slot) : idx.passedOf (slot :: rest) = [] :=
  List.takeWhile_cons_of_neg (by simpa using h)

theorem passedOf_cons {slot : ℕ} (rest : List ℕ) (h : ¬ idx.Ripe slot) : idx.passedOf (slot :: rest) = slot :: idx.passedOf rest :=
  List.takeWhile_cons_of_pos (by simpa using h)

theorem lookedOf_cons_of_ripe {slot : ℕ} (rest : List ℕ) (h : idx.Ripe slot) : idx.lookedOf (slot :: rest) = 1 := by
  rw [lookedOf, passedOf_cons_of_ripe rest h, if_pos ⟨slot, List.mem_cons_self, h⟩]
  rfl

theorem lookedOf_cons {slot : ℕ} (rest : List ℕ) (h : ¬ idx.Ripe slot) : idx.lookedOf (slot :: rest) = idx.lookedOf rest + 1 := by
  have hiff : (∃ s ∈ slot :: rest, idx.Ripe s) ↔ ∃ s ∈ rest, idx.Ripe s := by simp [h]
  rw [lookedOf, lookedOf, passedOf_cons rest h, List.length_cons, if_congr hiff rfl rfl]
  omega

theorem passedOf_congr {slots : List ℕ} (h : ∀ slot ∈ slots, idx'.Ripe slot ↔ idx.Ripe slot) : idx'.passedOf slots = idx.passedOf slots := by
  induction slots with
  | nil => rfl
  | cons slot rest ih =>
    have hslot := h slot List.mem_cons_self
    have hrest := ih fun s hs => h s (List.mem_cons_of_mem _ hs)
    by_cases hr : idx.Ripe slot
    · rw [passedOf_cons_of_ripe rest hr, passedOf_cons_of_ripe rest (hslot.mpr hr)]
    · rw [passedOf_cons rest hr, passedOf_cons rest (mt hslot.mp hr), hrest]

theorem lookedOf_congr {slots : List ℕ} (h : ∀ slot ∈ slots, idx'.Ripe slot ↔ idx.Ripe slot) : idx'.lookedOf slots = idx.lookedOf slots := by
  have hiff : (∃ slot ∈ slots, idx'.Ripe slot) ↔ ∃ slot ∈ slots, idx.Ripe slot :=
    exists_congr fun slot => and_congr_right fun hs => h slot hs
  rw [lookedOf, lookedOf, passedOf_congr h, if_congr hiff rfl rfl]

theorem swept_cons_of_pinned (slots : List ℕ) (hand : ℕ) (h : ¬ idx.Unpinned idx.hand) :
    idx.onward.swept slots hand = idx.swept (idx.hand :: slots) hand := by
  have hslots : ∀ slot, (slot ∈ idx.hand :: slots ∧ idx.Unpinned slot ∧ idx.Marked slot) ↔ slot ∈ slots ∧ idx.Unpinned slot ∧ idx.Marked slot := by
    intro slot
    rw [List.mem_cons]
    constructor
    · rintro ⟨rfl | hs, hp, hm⟩
      · exact absurd hp h
      · exact ⟨hs, hp, hm⟩
    · rintro ⟨hs, hp, hm⟩
      exact ⟨.inr hs, hp, hm⟩
  unfold swept
  congr 1
  funext slot
  exact (if_congr (hslots slot) rfl rfl).symm

/-- The hand goes past a marked slot and clears its mark. -/
def unmark (idx : Index) : Index := idx.onward.modify idx.hand fun entry => { entry with referenced := false }

theorem unmark_slots_of_ne {slot : ℕ} (h : slot ≠ idx.hand) : idx.unmark.slots slot = idx.slots slot := modify_slots_of_ne _ h

theorem swept_cons_of_marked {slots : List ℕ} (hand : ℕ) (hp : idx.Unpinned idx.hand) (hm : idx.Marked idx.hand) (hnot : idx.hand ∉ slots) :
    idx.unmark.swept slots hand = idx.swept (idx.hand :: slots) hand := by
  unfold swept
  congr 1
  funext slot
  by_cases hs : slot = idx.hand
  · subst hs
    rw [if_neg fun h => hnot h.1, if_pos ⟨List.mem_cons_self, hp, hm⟩]
    exact modify_slots_self ..
  · have hslot := unmark_slots_of_ne hs
    simp only [List.mem_cons, hs, false_or, Unpinned, Marked, hslot]

/-- The sweep takes the first slot that is ripe, or else the first that is not pinned. -/
theorem victimFrom_eq (fallback : Option ℕ) (hhand : idx.hand < idx.slotCount) (hnodup : (idx.sweep n).Nodup) :
    victimFrom n fallback idx =
      (((idx.sweep n).find? (fun slot => idx.Ripe slot)).or (fallback.or ((idx.sweep n).find? fun slot => idx.Unpinned slot)),
        idx.swept (idx.passedOf (idx.sweep n)) (idx.fromHand (idx.lookedOf (idx.sweep n)))) := by
  induction n generalizing idx fallback with
  | zero =>
    have hmove : idx.fromHand 0 = idx.hand := Nat.mod_eq_of_lt hhand
    simp [victimFrom, sweep, lookedOf_nil, passedOf, swept, hmove]
  | succ n ih =>
    have hadv : idx.onward.hand < idx.slotCount := advance_lt hhand
    rw [sweep_succ hhand] at hnodup ⊢
    obtain ⟨hnot, hrest⟩ := List.nodup_cons.mp hnodup
    have hnext : ∀ k, idx.onward.fromHand k = idx.fromHand (k + 1) := onward_hand
    simp only [victimFrom]
    split
    next hp =>
      have hp : ¬ idx.Unpinned idx.hand := hp
      have hripe : ¬ idx.Ripe idx.hand := fun h => hp h.1
      show victimFrom n fallback idx.onward = _
      rw [ih fallback hadv hrest, passedOf_cons _ hripe, lookedOf_cons _ hripe, ← hnext, ← swept_cons_of_pinned _ _ hp,
        List.find?_cons_of_neg (by simpa using hripe), List.find?_cons_of_neg (by simpa using hp)]
      rfl
    next hp =>
      have hp : idx.Unpinned idx.hand := not_not.mp hp
      split
      next hm =>
        have hripe : ¬ idx.Ripe idx.hand := fun h => h.2 hm
        have hsame : ∀ slot ∈ idx.onward.sweep n, idx.unmark.slots slot = idx.slots slot := fun slot hs =>
          unmark_slots_of_ne fun he => hnot (he ▸ hs)
        have hsameRipe : ∀ slot ∈ idx.onward.sweep n, idx.unmark.Ripe slot ↔ idx.Ripe slot := fun slot hs => by
          rw [Ripe, Unpinned, Marked, hsame slot hs]
          rfl
        have hfind : (idx.onward.sweep n).find? (fun slot => idx.unmark.Ripe slot) = (idx.onward.sweep n).find? fun slot => idx.Ripe slot :=
          List.find?_congr fun slot hs => decide_eq_decide.mpr (hsameRipe slot hs)
        have hpassed : idx.hand ∉ idx.passedOf (idx.onward.sweep n) := fun h => hnot ((List.takeWhile_prefix _).subset h)
        show victimFrom n (if fallback = none then some idx.hand else fallback) idx.unmark = _
        rw [ih _ (show idx.unmark.hand < idx.unmark.slotCount from hadv) hrest]
        show ((idx.onward.sweep n).find? (fun slot => idx.unmark.Ripe slot) |>.or _, idx.unmark.swept (idx.unmark.passedOf (idx.onward.sweep n))
          (idx.onward.fromHand (idx.unmark.lookedOf (idx.onward.sweep n)))) = _
        rw [passedOf_congr hsameRipe, lookedOf_congr hsameRipe, passedOf_cons _ hripe, lookedOf_cons _ hripe, hnext,
          swept_cons_of_marked _ hp hm hpassed, List.find?_cons_of_neg (by simpa using hripe),
          List.find?_cons_of_pos (by simpa using hp), hfind]
        cases fallback <;> simp
      next hm =>
        have hripe : idx.Ripe idx.hand := ⟨hp, hm⟩
        rw [passedOf_cons_of_ripe _ hripe, lookedOf_cons_of_ripe _ hripe, List.find?_cons_of_pos (by simpa using hripe), Option.some_or,
          ← hnext 0]
        have hmove : idx.onward.fromHand 0 = idx.onward.hand := Nat.mod_eq_of_lt hadv
        rw [hmove]
        simp [swept, onward]

/-- The clock fails where all slots in reach are pinned. Otherwise it takes the first that is
free or not marked, or else the first that is not pinned; the slots it went past lose their
marks, but for the pinned ones, and the hand stops behind the last slot looked at. -/
theorem victim_exact (hhand : idx.hand < idx.slotCount) :
    (idx.victim.1 = none ↔ ∀ slot ∈ idx.inReach, ¬ idx.Unpinned slot) ∧
      (∀ slot, idx.victim.1 = some slot → idx.Unpinned slot) ∧
      ((∃ slot ∈ idx.inReach, idx.Ripe slot) → idx.victim.1 = idx.inReach.find? fun slot => idx.Ripe slot) ∧
      ((∀ slot ∈ idx.inReach, ¬ idx.Ripe slot) → idx.victim.1 = idx.inReach.find? fun slot => idx.Unpinned slot) ∧
      idx.victim.2 = idx.swept (idx.passedOf idx.inReach) (idx.fromHand (idx.lookedOf idx.inReach)) := by
  have heq : idx.victim = _ := victimFrom_eq none hhand (sweep_nodup (Nat.min_le_left idx.slotCount clockReach))
  have hslot : idx.victim.1 = (idx.inReach.find? fun slot => idx.Ripe slot).or (idx.inReach.find? fun slot => idx.Unpinned slot) := by
    rw [heq, Option.none_or]
    rfl
  have hripe : ∀ slot, idx.inReach.find? (fun slot => idx.Ripe slot) = some slot → idx.Ripe slot := fun slot h => by
    simpa using List.find?_some h
  refine ⟨?_, fun slot hs => ?_, fun hr => ?_, fun hr => ?_, by rw [heq]; rfl⟩
  · rw [hslot, Option.or_eq_none_iff, List.find?_eq_none, List.find?_eq_none]
    constructor
    · rintro ⟨-, h⟩ slot hs
      simpa using h slot hs
    · intro h
      exact ⟨fun slot hs => by simpa using fun hr : idx.Ripe slot => h slot hs hr.1, fun slot hs => by simpa using h slot hs⟩
  · rw [hslot] at hs
    rcases Option.or_eq_some_iff.mp hs with h | ⟨-, h⟩
    · exact (hripe slot h).1
    · simpa using List.find?_some h
  · obtain ⟨ripe, hmem, hr⟩ := hr
    have hsome : (idx.inReach.find? fun slot => idx.Ripe slot).isSome = true :=
      List.find?_isSome.mpr ⟨ripe, hmem, by simpa using hr⟩
    rw [hslot, Option.or_of_isSome hsome]
  · have hnone : (idx.inReach.find? fun slot => idx.Ripe slot) = none :=
      List.find?_eq_none.mpr fun slot hs => by simpa using hr slot hs
    rw [hslot, hnone, Option.none_or]

/-- A slot that is pinned, one that is marked and one that is neither. -/
def threeSlots : Index where
  slots slot := { emptySlot with pins := if slot = 0 then 1 else 0, state := .valid, referenced := slot = 1 }
  heads _ := none
  ghosts _ := 0
  slotCount := 3
  hashMask := 3
  hand := 0
  ghostMask := 1

theorem victim_exact_threeSlots : threeSlots.hand < threeSlots.slotCount ∧ threeSlots.victim.1 = some 2 :=
  
  have hhand : threeSlots.hand < threeSlots.slotCount := by decide
  ⟨hhand, ((victim_exact hhand).2.2.1 ⟨2, by decide, by decide⟩).trans (by decide)⟩

end BlorgFS.DiskCache.Index
