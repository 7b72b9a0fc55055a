import BlorgFS.DiskCache.IndexInvariant
import Mathlib.Algebra.Group.Pi.Basic
import Mathlib.Data.List.GetD
import Mathlib.Tactic.Ring

/-! What each operation of the disk cache's index can do, one lemma for each.
All but `reserve` and `commit` leave every slot's key, state and chain alone and
only move pins; `Repinned` says that, with the number of pins each slot gained. -/

namespace BlorgFS.DiskCache.Index

open Lib

variable {idx idx' : Index} {P : ℕ → Prop}

/-- The same chains and holders, with `d slot` more pins on each slot. The marks,
the ghosts and the hand may move. -/
structure Repinned (idx idx' : Index) (d : ℕ → ℤ) : Prop where
  key : ∀ slot, (idx'.slots slot).key = (idx.slots slot).key
  state : ∀ slot, (idx'.slots slot).state = (idx.slots slot).state
  pins : ∀ slot, (idx'.slots slot).pins = (idx.slots slot).pins + d slot
  next : ∀ slot, idx'.next slot = idx.next slot
  heads : idx'.heads = idx.heads
  slotCount : idx'.slotCount = idx.slotCount
  hashMask : idx'.hashMask = idx.hashMask
  hand : idx.hand < idx.slotCount → idx'.hand < idx.slotCount

theorem Repinned.refl (idx : Index) : Repinned idx idx 0 :=
  ⟨fun _ => rfl, fun _ => rfl, fun _ => by simp, fun _ => rfl, rfl, rfl, rfl, id⟩

theorem Repinned.trans {idx₁ idx₂ idx₃ : Index} {d e : ℕ → ℤ} (h : Repinned idx₁ idx₂ d)
    (h' : Repinned idx₂ idx₃ e) : Repinned idx₁ idx₃ (d + e) where
  key slot := (h'.key slot).trans (h.key slot)
  state slot := (h'.state slot).trans (h.state slot)
  pins slot := by rw [h'.pins, h.pins, Pi.add_apply, add_assoc]
  next slot := (h'.next slot).trans (h.next slot)
  heads := h'.heads.trans h.heads
  slotCount := h'.slotCount.trans h.slotCount
  hashMask := h'.hashMask.trans h.hashMask
  hand hh := h.slotCount ▸ h'.hand (h.slotCount.symm ▸ h.hand hh)

theorem Repinned.of_eq {d e : ℕ → ℤ} (h : Repinned idx idx' d) (he : d = e) : Repinned idx idx' e :=
  he ▸ h

theorem Repinned.chained {d : ℕ → ℤ} (h : Repinned idx idx' d) (slot : ℕ) :
    idx'.Chained slot ↔ idx.Chained slot := by
  simp [Chained, h.slotCount, h.state]

theorem Repinned.inv {d : ℕ → ℤ} (h : Repinned idx idx' d) (hi : idx.Inv) : idx'.Inv where
  chains := hi.chains.congr (fun slot => (h.chained slot).symm) h.heads h.hashMask
    (fun slot _ => h.next slot) (fun slot _ => h.key slot)
  distinct i j hci hcj hk := by
    rw [h.key, h.key] at hk
    exact hi.distinct i j ((h.chained i).mp hci) ((h.chained j).mp hcj) hk
  hand := h.slotCount.symm ▸ h.hand hi.hand

/-- Changing one slot's pins and mark. -/
theorem modify_pins_repinned (idx : Index) (slot : ℕ) (n : ℤ) (mark : Slot → Bool) :
    Repinned idx (idx.modify slot fun entry =>
      { entry with pins := entry.pins + n, referenced := mark entry }) (Pi.single slot n) where
  key other := by by_cases h : other = slot <;> [subst h; skip] <;> simp [modify, *]
  state other := by by_cases h : other = slot <;> [subst h; skip] <;> simp [modify, *]
  pins other := by by_cases h : other = slot <;> [subst h; skip] <;> simp [modify, *]
  next other := by by_cases h : other = slot <;> [subst h; skip] <;> simp [Index.next, modify, *]
  heads := rfl
  slotCount := rfl
  hashMask := rfl
  hand := id

/-! ### Pins -/

/-- How often `slot` stands in an array of slots. -/
def occurs (slots : List (Option ℕ)) (slot : ℕ) : ℕ := slots.count (some slot)

@[simp] theorem occurs_nil (slot : ℕ) : occurs [] slot = 0 := rfl

@[simp] theorem occurs_none_cons (slots : List (Option ℕ)) (slot : ℕ) :
    occurs (none :: slots) slot = occurs slots slot := by simp [occurs]

theorem occurs_some_cons (slots : List (Option ℕ)) (s slot : ℕ) :
    (occurs (some s :: slots) slot : ℤ) = Pi.single (M := fun _ => ℤ) s 1 slot + occurs slots slot := by
  by_cases h : slot = s
  · subst h; simp [occurs]; ring
  · simp [occurs, h, Ne.symm h]

/-- One slot of `pinHeld`'s answer: pinned for `key`, or missing because no slot
is valid for it. -/
def Answers (idx : Index) (key : Key) : Option ℕ → Prop
  | some slot => idx.Chained slot ∧ (idx.slots slot).state = .valid ∧ (idx.slots slot).key = key
  | none => ∀ slot, idx.Chained slot → (idx.slots slot).key = key → (idx.slots slot).state ≠ .valid

/-- The answers for successive blocks from `key` on. -/
def AnswersFrom (idx : Index) : Key → List (Option ℕ) → Prop
  | _, [] => True
  | key, slot :: slots =>
    idx.Answers key slot ∧ AnswersFrom idx { key with block := key.block + 1 } slots

theorem AnswersFrom.valid_of_mem {slot : ℕ} : ∀ {slots : List (Option ℕ)} {key : Key},
    idx.AnswersFrom key slots → some slot ∈ slots → (idx.slots slot).state = .valid
  | s :: _, _, h, hs => by
    rcases List.mem_cons.mp hs with rfl | hs
    · exact h.1.2.1
    · exact valid_of_mem h.2 hs

theorem Repinned.answers {d : ℕ → ℤ} (h : Repinned idx idx' d) (key : Key) (slot : Option ℕ) :
    idx'.Answers key slot ↔ idx.Answers key slot := by
  cases slot <;> simp [Answers, h.chained, h.state, h.key]

theorem Repinned.answersFrom {d : ℕ → ℤ} (h : Repinned idx idx' d) (key : Key) (slots : List (Option ℕ)) :
    idx'.AnswersFrom key slots ↔ idx.AnswersFrom key slots := by
  induction slots generalizing key with
  | nil => rfl
  | cons slot slots ih => simp only [AnswersFrom, h.answers, ih]

theorem pinBlocks_spec (h : idx.Inv) (key : Key) (n : ℕ) :
    ∃ slots pinned idx', idx.pinBlocks key n = some (slots, pinned, idx') ∧
      slots.length = n ∧ idx.AnswersFrom key slots ∧
      Repinned idx idx' (fun slot => occurs slots slot) := by
  induction n generalizing idx key with
  | zero => exact ⟨[], 0, idx, rfl, rfl, trivial, (Repinned.refl idx).of_eq (by funext; simp)⟩
  | succ n ih =>
    obtain ⟨r, hr, hspec⟩ := find_spec h key
    cases r with
    | none =>
      obtain ⟨slots, pinned, idx', he, hlen, ha, hre⟩ := ih h { key with block := key.block + 1 }
      refine ⟨none :: slots, pinned, idx', by simp [pinBlocks, hr, he], by simp [hlen], ⟨?_, ha⟩,
        hre.of_eq (by funext; simp)⟩
      intro slot hc hk
      exact absurd ((hspec slot).mpr ⟨hc, hk⟩) (by simp)
    | some slot =>
      obtain ⟨hc, hk⟩ := (hspec slot).mp rfl
      by_cases hv : (idx.slots slot).state = .valid
      · have hp := modify_pins_repinned idx slot 1 (fun entry => entry.referenced)
        obtain ⟨slots, pinned, idx', he, hlen, ha, hre⟩ :=
          ih (hp.inv h) { key with block := key.block + 1 }
        refine ⟨some slot :: slots, pinned + 1, idx', ?_, by simp [hlen],
          ⟨⟨hc, hv, hk⟩, (hp.answersFrom _ _).mp ha⟩,
          (hp.trans hre).of_eq (by funext other; rw [Pi.add_apply, occurs_some_cons])⟩
        simp only [pinBlocks, hr, Option.bind_eq_bind, Option.bind_some, hv, if_true, he]
        rfl
      · obtain ⟨slots, pinned, idx', he, hlen, ha, hre⟩ := ih h { key with block := key.block + 1 }
        refine ⟨none :: slots, pinned, idx', by simp [pinBlocks, hr, hv, he], by simp [hlen],
          ⟨?_, ha⟩, hre.of_eq (by funext; simp)⟩
        intro other hco hko
        rw [h.distinct other slot hco hc (hko.trans hk.symm)]
        exact hv

/-- `pinHeld` ends; it pins each slot as often as it names it, names only valid
slots of the keys asked for, and names every one there is. -/
theorem pinHeld_spec (h : idx.Inv) (key : Key) (lastBlock : ℕ) :
    ∃ slots pinned idx', idx.pinHeld key lastBlock = some (slots, pinned, idx') ∧
      slots.length = lastBlock + 1 - key.block ∧ idx.AnswersFrom key slots ∧
      Repinned idx idx' (fun slot => occurs slots slot) :=
  pinBlocks_spec h key _

/-- What `pinHeld` returns is how many blocks it found. -/
theorem pinBlocks_count {key : Key} {slots : List (Option ℕ)} {n pinned : ℕ} (h : idx.pinBlocks key n = some (slots, pinned, idx')) :
    slots.countP Option.isSome = pinned := by
  induction n generalizing idx key slots pinned with
  | zero =>
    cases h
    rfl
  | succ n ih =>
    simp only [pinBlocks, Option.bind_eq_bind, Option.bind_eq_some_iff] at h
    obtain ⟨r, -, h⟩ := h
    cases r with
    | none =>
      obtain ⟨⟨slots', pinned', idx''⟩, he, h⟩ := Option.bind_eq_some_iff.mp h
      cases h
      rw [List.countP_cons_of_neg (by simp), ih he]
    | some slot =>
      simp only at h
      split at h
      all_goals
        obtain ⟨⟨slots', pinned', idx''⟩, he, h⟩ := Option.bind_eq_some_iff.mp h
        cases h
        simp [ih he]

/-- `unpin` meets no assertion when each slot has the pins it is to lose. -/
theorem unpin_spec (idx : Index) (served : Bool) (slots : List (Option ℕ))
    (hp : ∀ slot, (occurs slots slot : ℤ) ≤ (idx.slots slot).pins) :
    ∃ idx', idx.unpin served slots = some idx' ∧
      Repinned idx idx' (fun slot => -(occurs slots slot : ℤ)) := by
  induction slots generalizing idx with
  | nil => exact ⟨idx, rfl, (Repinned.refl idx).of_eq (by funext; simp)⟩
  | cons s slots ih =>
    cases s with
    | none =>
      obtain ⟨idx', he, hre⟩ := ih _ (by simpa using hp)
      exact ⟨idx', he, hre.of_eq (by funext; simp)⟩
    | some s =>
      have hs := hp s
      rw [occurs_some_cons, Pi.single_eq_same] at hs
      have hd := modify_pins_repinned idx s (-1) (fun entry => entry.referenced || served)
      obtain ⟨idx', he, hre⟩ := ih (idx.modify s fun entry =>
          { entry with pins := entry.pins - 1, referenced := entry.referenced || served }) (by
        intro slot
        have hp' := hp slot
        rw [occurs_some_cons] at hp'
        have hd' := hd.pins slot
        simp only [← sub_eq_add_neg] at hd'
        rw [hd']
        by_cases hss : slot = s
        · subst hss; simp only [Pi.single_eq_same] at hp' ⊢; omega
        · simp only [Pi.single_eq_of_ne hss] at hp' ⊢; omega)
      refine ⟨idx', by simp only [unpin, if_pos (show 0 < (idx.slots s).pins by omega), he], ?_⟩
      refine (hd.trans hre).of_eq ?_
      funext slot
      rw [occurs_some_cons, Pi.add_apply]
      by_cases hss : slot = s
      · subst hss; simp only [Pi.single_eq_same]; omega
      · simp [Pi.single_eq_of_ne hss]

/-! ### Planning -/

/-- `slots'` is `slots` with some held blocks given up. -/
def GivenUp (slots slots' : List (Option ℕ)) : Prop :=
  List.Forall₂ (fun slot slot' => slot' = slot ∨ slot' = none) slots slots'

theorem GivenUp.refl (slots : List (Option ℕ)) : GivenUp slots slots :=
  List.forall₂_same.mpr fun _ _ => Or.inl rfl

theorem GivenUp.trans {l m n : List (Option ℕ)} (h : GivenUp l m) (h' : GivenUp m n) : GivenUp l n := by
  induction h generalizing n with
  | nil => exact h'
  | cons hab _ ih =>
    obtain ⟨c, k, hbc, hk, rfl⟩ := List.forall₂_cons_left_iff.mp h'
    refine List.Forall₂.cons ?_ (ih hk)
    rcases hbc with rfl | rfl
    · exact hab
    · exact Or.inr rfl

theorem heldBefore_le (slots : List (Option ℕ)) (i : ℕ) : heldBefore slots i ≤ i := by
  induction i with
  | zero => exact Nat.le_refl 0
  | succ i ih =>
    simp only [heldBefore]
    split <;> omega

theorem held_of_heldBefore_le {slots : List (Option ℕ)} {i j : ℕ} (h : heldBefore slots i ≤ j)
    (hj : j < i) : slots.getD j none ≠ none := by
  induction i with
  | zero => omega
  | succ i ih =>
    simp only [heldBefore] at h
    split at h
    next hi =>
      by_cases e : j = i
      · exact e ▸ hi
      · exact ih h (by omega)
    next => omega

/-- The gap a scan settled on: held blocks, at least one. -/
structure Gap (slots : List (Option ℕ)) (scan : Scan) : Prop where
  pos : 0 < scan.gapLength
  le : scan.gapStart + scan.gapLength ≤ slots.length
  held : ∀ i, scan.gapStart ≤ i → i < scan.gapStart + scan.gapLength → slots.getD i none ≠ none

/-- What holds of the scan's accumulators before it looks at block `i`. -/
structure ScanInv (slots : List (Option ℕ)) (i : ℕ) (scan : Scan) : Prop where
  runs_le : scan.runs ≤ i
  first : scan.runs ≤ 1 → scan.gapLength = 2 ^ 32 - 1
  gap : 1 < scan.runs → Gap slots scan

theorem scanStep_inv {slots : List (Option ℕ)} {i : ℕ} {scan : Scan} (h : ScanInv slots i scan)
    (hi : i < slots.length) (hlen : slots.length < 2 ^ 32) :
    ScanInv slots (i + 1) (scanStep slots scan i) := by
  unfold scanStep
  split
  next => exact ⟨by have := h.runs_le; omega, h.first, h.gap⟩
  next hstart =>
    simp only [not_or, not_not, not_and, ne_eq] at hstart
    have hle := heldBefore_le slots i
    by_cases hr : scan.runs = 0
    · simp only [hr, ne_eq, not_true_eq_false, false_and, if_false]
      exact ⟨by simp, fun _ => h.first (by omega), fun h1 => by simp at h1⟩
    · -- A run was seen before, so the held blocks that end here are a gap.
      have hi0 : i ≠ 0 := by have := h.runs_le; omega
      have hlt : heldBefore slots i < i := by
        obtain ⟨j, rfl⟩ := Nat.exists_eq_succ_of_ne_zero hi0
        have hj := heldBefore_le slots j
        have hprev := hstart.2 hi0
        simp only [Nat.succ_eq_add_one, Nat.add_sub_cancel] at hprev
        simp only [Nat.succ_eq_add_one, heldBefore, ne_eq, hprev, not_false_eq_true, if_true]
        omega
      have hgap : Gap slots ⟨scan.runs + 1, heldBefore slots i, i - heldBefore slots i⟩ :=
        ⟨by simp only; omega, by simp only; omega,
          fun j hj hj' => held_of_heldBefore_le hj (by simp only at hj'; omega)⟩
      have hle' := h.runs_le
      by_cases hless : i - heldBefore slots i < scan.gapLength
      · simp only [hr, hless, ne_eq, not_false_eq_true, and_self, if_true]
        exact ⟨by simp only; omega, fun h1 => by simp only at h1; omega, fun _ => hgap⟩
      · simp only [hless, and_false, if_false]
        refine ⟨by simp only; omega, fun h1 => by simp only at h1; omega, fun _ => ?_⟩
        by_cases h1 : 1 < scan.runs
        · have := h.gap h1
          exact ⟨this.pos, this.le, this.held⟩
        · have hfirst := h.first (by omega)
          exact absurd (by omega) hless

theorem scan_inv (slots : List (Option ℕ)) (hlen : slots.length < 2 ^ 32) :
    ScanInv slots slots.length (scan slots) := by
  suffices ∀ n ≤ slots.length, ScanInv slots n ((List.range n).foldl (scanStep slots) ⟨0, 0, 2 ^ 32 - 1⟩) from
    this _ le_rfl
  intro n
  induction n with
  | zero => intro _; exact ⟨le_rfl, fun _ => rfl, fun h => by simp at h⟩
  | succ n ih =>
    intro hn
    rw [List.range_succ, List.foldl_append, List.foldl_cons, List.foldl_nil]
    exact scanStep_inv (ih (by omega)) (by omega) hlen

theorem occurs_append (l m : List (Option ℕ)) (slot : ℕ) :
    occurs (l ++ m) slot = occurs l slot + occurs m slot := by simp [occurs]

theorem split_gap (slots : List (Option ℕ)) (start length : ℕ) :
    slots = slots.take start ++ (slots.drop start).take length ++ slots.drop (start + length) := by
  rw [List.append_assoc, ← List.drop_drop, List.take_append_drop, List.take_append_drop]

theorem occurs_giveUp (slots : List (Option ℕ)) (start length slot : ℕ) :
    occurs slots slot =
      occurs (giveUp slots start length) slot + occurs ((slots.drop start).take length) slot := by
  conv_lhs => rw [split_gap slots start length]
  simp only [giveUp, occurs_append]
  simp only [occurs, List.count_replicate]
  simp
  omega

theorem giveUp_givenUp (slots : List (Option ℕ)) {start length : ℕ} (h : start + length ≤ slots.length) :
    GivenUp slots (giveUp slots start length) := by
  have hsplit := split_gap slots start length
  unfold giveUp GivenUp
  conv => arg 2; rw [hsplit]
  refine List.rel_append (List.rel_append ?_ ?_) ?_
  · exact List.forall₂_same.mpr fun _ _ => Or.inl rfl
  · refine List.forall₂_iff_get.mpr ⟨by simp; omega, fun i hi hi' => Or.inr (by simp)⟩
  · exact List.forall₂_same.mpr fun _ _ => Or.inl rfl

theorem heldCount_giveUp {slots : List (Option ℕ)} (h : Gap slots (scan slots)) :
    (giveUp slots (scan slots).gapStart (scan slots).gapLength).countP Option.isSome <
      slots.countP Option.isSome := by
  have hsplit := split_gap slots (scan slots).gapStart (scan slots).gapLength
  conv_rhs => rw [hsplit]
  simp only [giveUp, List.countP_append]
  have hzero : (List.replicate (scan slots).gapLength (none : Option ℕ)).countP Option.isSome = 0 := by
    simp [List.countP_replicate]
  have hpos : 0 < ((slots.drop (scan slots).gapStart).take (scan slots).gapLength).countP Option.isSome := by
    have h0 : (scan slots).gapStart < slots.length := by have := h.pos; have := h.le; omega
    refine List.countP_pos_iff.mpr ⟨slots[(scan slots).gapStart], ?_, ?_⟩
    · rw [List.mem_take_iff_getElem]
      refine ⟨0, by have := h.pos; simp; omega, by simp⟩
    · have hheld := h.held (scan slots).gapStart le_rfl (by have := h.pos; omega)
      rw [List.getD_eq_getElem _ _ h0] at hheld
      exact Option.isSome_iff_ne_none.mpr hheld
  omega

theorem planRounds_spec (maxRuns : ℕ) (fuel : ℕ) (slots : List (Option ℕ)) (held : ℤ)
    (hlen : slots.length < 2 ^ 32) (hruns : 1 ≤ maxRuns ∨ (scan slots).runs = 0)
    (hfuel : slots.countP Option.isSome < fuel)
    (hp : ∀ slot, (occurs slots slot : ℤ) ≤ (idx.slots slot).pins) :
    ∃ held' slots' idx', planRounds maxRuns fuel idx slots held = some (held', slots', idx') ∧
      GivenUp slots slots' ∧ (scan slots').runs ≤ maxRuns ∧
      Repinned idx idx' (fun slot => (occurs slots' slot : ℤ) - occurs slots slot) := by
  induction fuel generalizing idx slots held with
  | zero => omega
  | succ fuel ih =>
    by_cases hle : (scan slots).runs ≤ maxRuns
    · exact ⟨held, slots, idx, by simp [planRounds, hle], GivenUp.refl slots, hle,
        (Repinned.refl idx).of_eq (by funext; simp)⟩
    · have hone : 1 ≤ maxRuns := by omega
      have hgap := (scan_inv slots hlen).gap (by omega)
      have hcount := heldCount_giveUp hgap
      set start := (scan slots).gapStart
      set length := (scan slots).gapLength
      have hocc := occurs_giveUp slots start length
      obtain ⟨idx₁, he₁, hre₁⟩ := unpin_spec idx false ((slots.drop start).take length)
        (fun slot => by have := hp slot; have := hocc slot; omega)
      have hg := giveUp_givenUp slots hgap.le
      obtain ⟨held', slots', idx', he, hgu, hr, hre⟩ := @ih idx₁ (giveUp slots start length)
        (held - length)
        (by rw [← hg.length_eq]; exact hlen) (Or.inl hone)
        (by omega)
        (fun slot => by have := hp slot; have := hocc slot; rw [hre₁.pins]; omega)
      refine ⟨held', slots', idx', ?_, hg.trans hgu, hr, (hre₁.trans hre).of_eq ?_⟩
      · simp only [planRounds, if_neg hle]
        rw [he₁]
        exact he
      · funext slot
        have := hocc slot
        simp only [Pi.add_apply]
        omega

/-- `planRead` ends: it gives held blocks up, unpinning exactly those, until at
most `maxRuns` runs are missing. -/
theorem planRead_spec (slots : List (Option ℕ)) (held : ℤ) (maxRuns : ℕ)
    (hlen : slots.length < 2 ^ 32) (hruns : 1 ≤ maxRuns ∨ (scan slots).runs = 0)
    (hp : ∀ slot, (occurs slots slot : ℤ) ≤ (idx.slots slot).pins) :
    ∃ held' slots' idx', idx.planRead slots held maxRuns = some (held', slots', idx') ∧
      GivenUp slots slots' ∧ (scan slots').runs ≤ maxRuns ∧
      Repinned idx idx' (fun slot => (occurs slots' slot : ℤ) - occurs slots slot) :=
  planRounds_spec maxRuns _ slots held hlen hruns
    (by have := List.countP_le_length (p := Option.isSome) (l := slots); omega) hp

/-! ### The clock -/

/-- A slot the clock may give up. -/
def Victim (idx : Index) : Option ℕ → Prop
  | none => True
  | some slot => slot < idx.slotCount ∧ (idx.slots slot).pins = 0

theorem Repinned.victim (h : Repinned idx idx' 0) (slot : Option ℕ) : idx'.Victim slot ↔ idx.Victim slot := by
  cases slot <;> simp [Victim, h.slotCount, h.pins]

theorem setHand_repinned (idx : Index) (hand : ℕ) (h : idx.hand < idx.slotCount → hand < idx.slotCount) :
    Repinned idx { idx with hand := hand } 0 :=
  ⟨fun _ => rfl, fun _ => rfl, fun _ => by simp, fun _ => rfl, rfl, rfl, rfl, h⟩

theorem advance_lt {hand slotCount : ℕ} (h : hand < slotCount) :
    (if hand + 1 = slotCount then 0 else hand + 1) < slotCount := by
  split <;> omega

theorem victimFrom_spec (looked : ℕ) (fallback : Option ℕ) (hhand : idx.hand < idx.slotCount)
    (hf : idx.Victim fallback) :
    Repinned idx (victimFrom looked fallback idx).2 0 ∧
      idx.Victim (victimFrom looked fallback idx).1 := by
  induction looked generalizing idx fallback with
  | zero => exact ⟨Repinned.refl idx, hf⟩
  | succ looked ih =>
    have hadv := advance_lt hhand
    have hmove := setHand_repinned idx _ (fun _ => hadv)
    simp only [victimFrom]
    set idx₁ : Index := { idx with hand := if idx.hand + 1 = idx.slotCount then 0 else idx.hand + 1 }
    split
    next =>
      obtain ⟨hre, hv⟩ := @ih idx₁ fallback hadv hf
      exact ⟨(hmove.trans hre).of_eq (add_zero 0), hv⟩
    next hp =>
      rw [not_not] at hp
      split
      next =>
        -- Marked: the mark goes, and the slot is what is left if no better is found.
        have hmark := modify_pins_repinned idx₁ idx.hand 0 (fun _ => false)
        simp only [add_zero, Pi.single_zero] at hmark
        have hboth := (hmove.trans hmark).of_eq (add_zero 0)
        obtain ⟨hre, hv⟩ := @ih (idx₁.modify idx.hand fun entry => { entry with referenced := false })
          (if fallback = none then some idx.hand else fallback) hadv
          ((hboth.victim _).mpr (by split <;> [exact ⟨hhand, hp⟩; exact hf]))
        exact ⟨(hboth.trans hre).of_eq (add_zero 0), (hboth.victim _).mp hv⟩
      next => exact ⟨hmove, hhand, hp⟩

/-- The clock moves only marks and its hand, and gives up an unpinned slot. -/
theorem victim_spec (hhand : idx.hand < idx.slotCount) :
    Repinned idx idx.victim.2 0 ∧ idx.Victim idx.victim.1 :=
  victimFrom_spec _ none hhand trivial

/-! ### Reserve and commit -/

/-- `link` puts a slot outside every chain at the front of its new key's. -/
theorem link_chains {slot : ℕ} (key : Key) (h : idx.Chains P) (hs : ¬ P slot) :
    (idx.link slot key).Chains fun other => P other ∨ other = slot := by
  have hnext : (idx.link slot key).next =
      Function.update idx.next slot (idx.heads (idx.chainOf (mix key))) := by
    funext other
    by_cases ho : other = slot
    · subst ho; simp [next, link]
    · simp [next, link, modify, ho]
  have hself : ((idx.link slot key).slots slot).key = key := by simp [link]
  have hkey : ∀ other, other ≠ slot → (idx.link slot key).slots other = idx.slots other := fun other ho => by
    simp [link, modify, ho]
  have hmem : ∀ {l : List ℕ} {c : ℕ}, (∀ other, other ∈ l ↔
      P other ∧ idx.chainOf (mix (idx.slots other).key) = c) → slot ∉ l := fun hm hin =>
    hs ((hm slot).mp hin).1
  intro c hc
  obtain ⟨l, hl, hm⟩ := h c hc
  rw [hnext]
  by_cases hck : c = idx.chainOf (mix key)
  · refine ⟨slot :: l, ?_, fun other => ?_⟩
    · have hhead : (idx.link slot key).heads c = some slot := by simp [link, hck]
      rw [hhead, ← hck]
      exact hl.push (hmem hm)
    · by_cases ho : other = slot
      · subst ho
        simp only [List.mem_cons, true_or, or_true, true_and, hself, true_iff]
        exact hck.symm
      · rw [List.mem_cons, hm other, hkey other ho]
        simp only [ho, false_or, or_false]
        rfl
  · refine ⟨l, ?_, fun other => ?_⟩
    · have hhead : (idx.link slot key).heads c = idx.heads c := by simp [link, hck]
      rw [hhead]
      refine hl.congr fun a ha => Function.update_of_ne ?_ _ _
      rintro rfl
      exact hmem hm ha
    · by_cases ho : other = slot
      · subst ho
        refine ⟨fun hin => absurd hin (hmem hm), fun hin => ?_⟩
        rw [hself] at hin
        exact absurd hin.2.symm hck
      · rw [hm other, hkey other ho]
        simp only [ho, or_false]
        rfl

/-- `slot` went to `key`, pinned once and filling, and every other slot is as it
was. -/
structure Taken (idx idx' : Index) (slot : ℕ) (key : Key) : Prop where
  lt : slot < idx.slotCount
  unpinned : (idx.slots slot).pins = 0
  key : (idx'.slots slot).key = key
  state : (idx'.slots slot).state = .filling
  pins : (idx'.slots slot).pins = 1
  others : ∀ other, other ≠ slot → (idx'.slots other).key = (idx.slots other).key ∧
    (idx'.slots other).state = (idx.slots other).state ∧ (idx'.slots other).pins = (idx.slots other).pins
  slotCount : idx'.slotCount = idx.slotCount

/-- Giving an unpinned slot to a key no slot holds: out of its old chain, if it
is in one, and into the new one. -/
theorem take_spec {slot : ℕ} (key : Key) (h : idx.Inv) (hlt : slot < idx.slotCount)
    (hp : (idx.slots slot).pins = 0) (hk : ∀ other, idx.Chained other → (idx.slots other).key ≠ key) :
    ∃ idx', idx.detach slot = some idx' ∧
      (idx'.link slot key).Inv ∧ Taken idx (idx'.link slot key) slot key := by
  -- Whatever state the slot was in, what is left is the chains of the others.
  obtain ⟨idx₁, he, hre, hch⟩ : ∃ idx₁, idx.detach slot = some idx₁ ∧ Relinked idx idx₁ ∧
      idx₁.Chains fun other => idx.Chained other ∧ other ≠ slot := by
    by_cases hfree : (idx.slots slot).state = .free
    · refine ⟨idx, by simp [detach, hfree], ⟨fun _ => rfl, rfl, rfl, rfl, rfl, rfl⟩, h.chains.congr ?_ rfl rfl
        (fun _ _ => rfl) (fun _ _ => rfl)⟩
      intro other
      refine ⟨fun ho => ⟨ho, ?_⟩, And.left⟩
      rintro rfl
      exact ho.2 hfree
    · obtain ⟨idx₁, he, hre, hch⟩ := unlink_spec h.chains ⟨hlt, hfree⟩ fun _ hs => hs.1
      exact ⟨idx₁, by simp [detach, hfree, he], hre, hch⟩
  have hself : (idx₁.link slot key).slots slot = ⟨key, idx₁.heads (idx₁.chainOf (mix key)), 1, .filling, false⟩ := by
    simp [link]
  have hother : ∀ other, other ≠ slot → (idx₁.link slot key).slots other = idx₁.slots other := fun other ho => by
    simp [link, modify, ho]
  have hcount : (idx₁.link slot key).slotCount = idx.slotCount := hre.slotCount
  have hchained : ∀ other, (idx.Chained other ∧ other ≠ slot) ∨ other = slot ↔
      (idx₁.link slot key).Chained other := by
    intro other
    by_cases ho : other = slot
    · subst ho; simp [Chained, hself, hcount, hlt]
    · simp [Chained, hother other ho, hcount, hre.slots other, ho]
  refine ⟨idx₁, he, ?_, ?_⟩
  · refine ⟨(link_chains key hch (by simp)).congr hchained rfl rfl (fun _ _ => rfl) (fun _ _ => rfl), ?_, ?_⟩
    · intro i j hi hj hkey
      rcases (hchained i).mpr hi with ⟨hci, hni⟩ | rfl <;> rcases (hchained j).mpr hj with ⟨hcj, hnj⟩ | rfl
      · rw [hother i hni, hother j hnj, hre.slots i, hre.slots j] at hkey
        exact h.distinct i j hci hcj hkey
      · rw [hother i hni, hself, hre.slots i] at hkey
        exact absurd hkey (hk i hci)
      · rw [hother j hnj, hself, hre.slots j] at hkey
        exact absurd hkey.symm (hk j hcj)
      · rfl
    · rw [hcount]
      exact (congrArg (· < idx.slotCount) hre.hand).mpr h.hand
  · refine ⟨hlt, hp, by rw [hself], by rw [hself], by rw [hself], fun other ho => ?_, hcount⟩
    rw [hother other ho, hre.slots other]
    exact ⟨rfl, rfl, rfl⟩

theorem setGhosts_inv (ghosts : ℕ → ℕ) (h : idx.Inv) : ({ idx with ghosts := ghosts } : Index).Inv :=
  ⟨h.chains, h.distinct, h.hand⟩

theorem setGhosts_repinned (ghosts : ℕ → ℕ) : Repinned idx { idx with ghosts := ghosts } 0 :=
  ⟨fun _ => rfl, fun _ => rfl, fun _ => by simp, fun _ => rfl, rfl, rfl, rfl, id⟩

/-- `reserve` ends, and either takes an unpinned slot for a key none holds or
leaves every slot's key, state and pins. -/
theorem reserve_spec (h : idx.Inv) (key : Key) :
    ∃ answer slot idx', idx.reserve key = some (answer, slot, idx') ∧ idx'.Inv ∧
      ((answer ≠ .reserved ∧ slot = none ∧ Repinned idx idx' 0) ∨
        ∃ s, answer = .reserved ∧ slot = some s ∧ Taken idx idx' s key ∧
          ∀ other, idx.Chained other → (idx.slots other).key ≠ key) := by
  obtain ⟨r, hr, hspec⟩ := find_spec h key
  by_cases hheld : r = none
  case neg =>
    exact ⟨.held, none, idx, by simp [reserve, hr, hheld], h, Or.inl ⟨by simp, rfl, Repinned.refl idx⟩⟩
  subst hheld
  have hk : ∀ other, idx.Chained other → (idx.slots other).key ≠ key := fun other hc he =>
    absurd ((hspec other).mpr ⟨hc, he⟩) (by simp)
  by_cases hway : idx.ghostWay (idx.ghostBase (mix key)) (mix key ||| 1) = ghostWays
  · exact ⟨.firstMiss, none, _, by simp [reserve, hr, hway]; rfl, setGhosts_inv _ h,
      Or.inl ⟨by simp, rfl, setGhosts_repinned _⟩⟩
  obtain ⟨hre, hv⟩ := victim_spec h.hand
  rcases hvic : idx.victim with ⟨_ | slot, idx₁⟩ <;> rw [hvic] at hre hv
  · exact ⟨.noVictim, none, idx₁, by simp [reserve, hr, hway, hvic], hre.inv h, Or.inl ⟨by simp, rfl, hre⟩⟩
  · simp only at hre hv
    have hp₁ := hre.pins slot
    rw [hv.2, Pi.zero_apply, add_zero] at hp₁
    obtain ⟨idx₂, he, hinv, htaken⟩ := take_spec key (hre.inv h) (hre.slotCount.symm ▸ hv.1) hp₁
      fun other hc => by rw [hre.key]; exact hk other ((hre.chained other).mp hc)
    refine ⟨.reserved, some slot, _, ?_, setGhosts_inv (Function.update (idx₂.link slot key).ghosts
      (idx.ghostBase (mix key) + idx.ghostWay (idx.ghostBase (mix key)) (mix key ||| 1)) 0) hinv,
      Or.inr ⟨slot, rfl, rfl, ⟨hv.1, hv.2, htaken.key, htaken.state, htaken.pins, fun other ho => ?_,
        htaken.slotCount.trans hre.slotCount⟩, hk⟩⟩
    · simp only [reserve, hr, hway, hvic, he, Option.bind_eq_bind, Option.bind_some, ne_eq,
        not_true_eq_false, if_false]
      rfl
    · obtain ⟨h1, h2, h3⟩ := htaken.others other ho
      rw [hre.key, hre.state, hre.pins, Pi.zero_apply, add_zero] at *
      exact ⟨h1, h2, h3⟩

/-- `slot`'s fill ended: it is valid or free, and has lost the fill's pin. -/
structure Committed (idx idx' : Index) (slot : ℕ) (state : SlotState) : Prop where
  key : ∀ other, (idx'.slots other).key = (idx.slots other).key
  state : (idx'.slots slot).state = state
  pins : (idx'.slots slot).pins = (idx.slots slot).pins - 1
  others : ∀ other, other ≠ slot → (idx'.slots other).state = (idx.slots other).state ∧
    (idx'.slots other).pins = (idx.slots other).pins
  slotCount : idx'.slotCount = idx.slotCount

theorem endFill_slots (slot other : ℕ) (state : SlotState) :
    (idx.endFill slot state).slots other = if other = slot
      then { idx.slots slot with state := state, pins := (idx.slots slot).pins - 1 }
      else idx.slots other := by
  by_cases h : other = slot
  · subst h; simp [endFill]
  · simp [endFill, modify, h]

@[simp] theorem endFill_slotCount (slot : ℕ) (state : SlotState) :
    (idx.endFill slot state).slotCount = idx.slotCount := rfl

/-- Ending a fill keeps the invariant when the chains already are those of the
slots that will be filling or valid. -/
theorem endFill_inv {slot : ℕ} {state : SlotState} (hch : idx.Chains P)
    (hP : ∀ other, P other ↔ (idx.endFill slot state).Chained other)
    (hd : ∀ i j, P i → P j → (idx.slots i).key = (idx.slots j).key → i = j)
    (hhand : idx.hand < idx.slotCount) : (idx.endFill slot state).Inv := by
  have hkey : ∀ other, ((idx.endFill slot state).slots other).key = (idx.slots other).key := fun other => by
    rw [endFill_slots]; split <;> simp_all
  refine ⟨hch.congr hP rfl rfl (fun other _ => ?_) (fun other _ => hkey other), fun i j hi hj hk => ?_, hhand⟩
  · simp only [next, endFill_slots]; split <;> simp_all
  · rw [hkey, hkey] at hk
    exact hd i j ((hP i).mpr hi) ((hP j).mpr hj) hk

/-- `commit` of a filling slot ends and meets no assertion. -/
theorem commit_spec {slot : ℕ} (written : Bool) (h : idx.Inv) (hlt : slot < idx.slotCount)
    (hs : (idx.slots slot).state = .filling) (hp : 0 < (idx.slots slot).pins) :
    ∃ idx', idx.commit slot written = some idx' ∧ idx'.Inv ∧
      Committed idx idx' slot (if written then .valid else .free) := by
  cases written with
  | true =>
    refine ⟨idx.endFill slot .valid, by simp [commit, hs, hp], endFill_inv h.chains (fun other => ?_)
      h.distinct h.hand, fun other => ?_, by simp [endFill_slots], by simp [endFill_slots],
      fun other ho => by simp [endFill_slots, ho], rfl⟩
    · by_cases ho : other = slot
      · subst ho; simp [Chained, endFill_slots, hs]
      · simp [Chained, endFill_slots, ho]
    · rw [endFill_slots]; split <;> simp_all
  | false =>
    obtain ⟨idx₁, he, hre, hch⟩ := unlink_spec h.chains ⟨hlt, by simp [hs]⟩ fun _ hs => hs.1
    have hslot : ∀ other, (idx₁.endFill slot .free).slots other = if other = slot
        then { idx.slots slot with state := .free, pins := (idx.slots slot).pins - 1, next := idx₁.next slot }
        else { idx.slots other with next := idx₁.next other } := fun other => by
      rw [endFill_slots, hre.slots slot, hre.slots other]
    refine ⟨idx₁.endFill slot .free, by simp [commit, hs, hp, he], endFill_inv hch (fun other => ?_)
      (fun i j hi hj hk => ?_) (by rw [hre.hand, hre.slotCount]; exact h.hand), fun other => ?_,
      by simp [hslot], by simp [hslot], fun other ho => by simp [hslot, ho], hre.slotCount⟩
    · by_cases ho : other = slot
      · subst ho; simp [Chained, hslot]
      · simp [Chained, hslot, ho, hre.slotCount]
    · rw [hre.slots i, hre.slots j] at hk
      exact h.distinct i j hi.1 hj.1 hk
    · rw [hslot]; split <;> simp_all

end BlorgFS.DiskCache.Index
